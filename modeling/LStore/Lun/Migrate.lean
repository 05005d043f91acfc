import LStore.Rs.Request
import Mathlib.Algebra.Order.BigOperators.Ring.Finset

/-!
# Moving the allocations of a LUN row

`slun_row_placement_fix` of `src/lio/segment/lun.c` copies blocks to new allocations, in at most
five rounds, and `seglun_migrate_func` calls it on every row with misplaced blocks and reports
whether all of them were moved.

## Implementation notes

How the resource service, the allocations and the copies turn out is given for each round and
block, with what a new allocation holds behind the block. The table of RID changes is read
through `flagged` and `shuffle`.
-/

namespace LStore.Lun

open List

open Rs (RsError)

variable {β : Type*} {n : Nat}

/-- `seglun_block_t`: what the allocation holds, where the block starts in it, and how often the
allocation was replaced. -/
structure Block (β : Type*) where
  bytes : Int → β
  capOffset : Int
  moves : Nat

/-- How a round goes for a block. -/
structure Move (β : Type*) where
  flagged : Bool
  allocated : Bool
  copied : Bool
  fresh : Int → β

/-- The blocks of a row with their `block_status`. -/
structure RowState (n : Nat) (β : Type*) where
  block : Fin n → Block β
  status : Fin n → Int

/-- What `seglun_rw_op` reads at an offset: it does not add `cap_offset`. -/
def Block.read (b : Block β) (x : Int) : β := b.bytes x

/-- A block copied to the start of a new allocation. -/
def Block.moved (len : Int) (fresh : Int → β) (b : Block β) : Block β where
  bytes x := if 0 ≤ x ∧ x < len then b.bytes (b.capOffset + x) else fresh x
  capOffset := 0
  moves := b.moves + 1

namespace RowState

variable (len : Int) (m : Fin n → Move β) (r : RowState n β)

/-- The round moves the block. -/
def done (i : Fin n) : Bool :=
  (r.status i != 0 || (m i).flagged) && (m i).allocated && (m i).copied

def fixRound : RowState n β where
  block i := if r.done m i then (r.block i).moved len (m i).fresh else r.block i
  status i := if r.done m i then 0 else r.status i

def todo : Nat := (List.finRange n).countP fun i => r.status i ≠ 0

/-- The rounds, with the number of those that may follow. -/
def fixLoop (rounds : Nat → Fin n → Move β) : Nat → RowState n β → RowState n β
  | 0, r => r
  | k + 1, r =>
    let r := r.fixRound len (rounds k)
    if 0 < r.todo then fixLoop rounds k r else r

/-- `slun_row_placement_fix`; it returns what is still to do. -/
def placementFix (rounds : Nat → Fin n → Move β) : RowState n β := r.fixLoop len rounds 5

end RowState

variable {len : Int} {r : RowState n β}

/-- In every block of the row the bytes from `cap_offset` on are those from 0 on. -/
def SameFromZero (len : Int) (r : RowState n β) : Prop :=
  ∀ i x, 0 ≤ x → x < len → (r.block i).bytes ((r.block i).capOffset + x) = (r.block i).bytes x

theorem fixRound_reads (h : SameFromZero len r) (m : Fin n → Move β) :
    SameFromZero len (r.fixRound len m) ∧ ∀ i x, 0 ≤ x → x < len →
      ((r.fixRound len m).block i).read x = (r.block i).read x := by
  constructor <;> intro i x hx hlt <;> simp only [RowState.fixRound, Block.read] <;> split
  · simp [Block.moved]
  · exact h i x hx hlt
  · simp only [Block.moved, hx, hlt, and_self, if_true]
    exact h i x hx hlt
  · rfl

theorem fixLoop_reads (h : SameFromZero len r) (rounds : Nat → Fin n → Move β) (k : Nat) :
    ∀ i x, 0 ≤ x → x < len → ((r.fixLoop len rounds k).block i).read x = (r.block i).read x := by
  induction k generalizing r with
  | zero => exact fun _ _ _ _ => rfl
  | succ k ih =>
    obtain ⟨hsame, hread⟩ := fixRound_reads h (rounds k)
    intro i x hx hlt
    rw [RowState.fixLoop, ← hread i x hx hlt]
    split
    · exact ih hsame i x hx hlt
    · rfl

/-- However the operations turn out, the fix leaves the bytes that are read from a row, exactly
when each block has the same bytes from `cap_offset` on as from 0 on. -/
theorem placementFix_reads_iff (len : Int) (r : RowState n β) :
    (∀ rounds i x, 0 ≤ x → x < len →
        ((r.placementFix len rounds).block i).read x = (r.block i).read x) ↔
      ∀ i x, 0 ≤ x → x < len →
        (r.block i).bytes ((r.block i).capOffset + x) = (r.block i).bytes x := by
  constructor
  · intro h i x hx hlt
    let m : Fin n → Move β := fun j => ⟨true, true, true, (r.block j).bytes⟩
    have hall := h (fun _ => m) i x hx hlt
    have hdone : ∀ j, r.done m j = true := by
      simp [RowState.done, m]
    have htodo : ¬0 < (r.fixRound len m).todo := by
      simp [RowState.todo, RowState.fixRound, hdone]
    rw [RowState.placementFix, RowState.fixLoop, if_neg htodo] at hall
    simpa [RowState.fixRound, hdone, Block.read, Block.moved, hx, hlt] using hall
  · exact fun h rounds => fixLoop_reads h rounds 5

/-- A block that starts at offset 1 of its allocation reads 0 before it is moved and 1 after. -/
theorem placementFix_shifts :
    let r : RowState 1 Int := ⟨fun _ => ⟨id, 1, 0⟩, fun _ => -102⟩
    ((r.placementFix 1 fun _ _ => ⟨false, true, true, id⟩).block 0).read 0 = 1 ∧
      (r.block 0).read 0 = 0 := by
  decide

/-- The values of `RS_ERROR_OK` and the others. -/
def rsCode : RsError → Int
  | .ok => -100
  | .notEnoughRids => -101
  | .fixedMatchFail => -102
  | .fixedNotFound => -103
  | .hintsInvalidLocal => -104
  | .emptyStack => -105

/-- A row to migrate: what the resource service says of its blocks, which of them are to be
shuffled, and how the rounds of a fix go. -/
structure MigrateRow (n : Nat) (β : Type*) where
  len : Int
  block : Fin n → Block β
  hint : Fin n → RsError
  shuffle : Fin n → Bool
  rounds : Nat → Fin n → Move β

namespace MigrateRow

variable (soft changes : Bool) (q : MigrateRow n β)

/-- The check counts the block as bad because of an error of the resource service. -/
def genuine (i : Fin n) : Bool := q.hint i != .ok && (q.hint i != .fixedNotFound || soft)

/-- The check counts the block as bad because it is to be shuffled. -/
def shuffled (i : Fin n) : Bool := q.hint i == .ok && changes && q.shuffle i

/-- What `slun_row_placement_check` returns. -/
def placementCheck : Nat :=
  (List.finRange n).countP fun i => q.genuine soft i || q.shuffled changes i

/-- The `block_status` that `slun_row_placement_check` leaves. -/
def checkStatus (i : Fin n) : Int :=
  if q.hint i ≠ .ok then rsCode (q.hint i) else if q.shuffled changes i then -103 else 0

/-- The row goes through a fix. -/
def Fixes : Prop := 0 < q.placementCheck soft changes ∨ changes

instance : Decidable (q.Fixes soft changes) := inferInstanceAs (Decidable (_ ∨ _))

/-- The row after the call. -/
def after : RowState n β :=
  let r : RowState n β := ⟨q.block, q.checkStatus changes⟩
  if q.Fixes soft changes then r.placementFix q.len q.rounds else r

/-- One row of `seglun_migrate_func`: the blocks attempted and migrated so far. -/
def migrateRow (acc : Int × Int) : Int × Int :=
  let err := q.placementCheck soft changes
  if q.Fixes soft changes then
    let r := q.after soft changes
    let unflagged := (List.finRange n).countP fun i =>
      q.checkStatus changes i ≠ 0 ∧ r.status i = -103
    (acc.1 + err - unflagged, acc.2 + (err - r.todo) - unflagged)
  else (acc.1 + err, acc.2)

end MigrateRow

/-- `seglun_migrate_func`: whether it reports success. -/
def seglunMigrate (soft changes : Bool) (rows : List (MigrateRow n β)) : Bool :=
  let acc := rows.foldl (fun acc q => q.migrateRow soft changes acc) (0, 0)
  decide (acc.1 = acc.2)

variable {soft changes : Bool} {q : MigrateRow n β} {i : Fin n}

/-- A status is cleared only where the block is moved. -/
theorem fixLoop_moves (len : Int) (rounds : Nat → Fin n → Move β) (k : Nat) (r : RowState n β) :
    (r.block i).moves ≤ ((r.fixLoop len rounds k).block i).moves ∧
      ((r.fixLoop len rounds k).status i = 0 → r.status i ≠ 0 →
        (r.block i).moves < ((r.fixLoop len rounds k).block i).moves) := by
  induction k generalizing r with
  | zero => exact ⟨le_rfl, fun h hne => absurd h hne⟩
  | succ k ih =>
    have hround : (r.block i).moves ≤ ((r.fixRound len (rounds k)).block i).moves ∧
        ((r.fixRound len (rounds k)).status i = 0 → r.status i ≠ 0 →
          (r.block i).moves < ((r.fixRound len (rounds k)).block i).moves) := by
      simp only [RowState.fixRound]
      split
      · simp [Block.moved]
      · exact ⟨le_rfl, fun h hne => absurd h hne⟩
    rw [RowState.fixLoop]
    split
    · have hrest := ih (r.fixRound len (rounds k))
      refine ⟨by omega, fun h hne => ?_⟩
      by_cases hone : (r.fixRound len (rounds k)).status i = 0 <;> omega
    · exact hround

/-- What the fix of a row leaves to do. -/
def MigrateRow.left (soft changes : Bool) (q : MigrateRow n β) : Nat :=
  if q.Fixes soft changes then (q.after soft changes).todo else 0

/-- The blocks attempted and not migrated are those the fixes leave to do. -/
theorem foldl_migrateRow (soft changes : Bool) (rows : List (MigrateRow n β)) (acc : Int × Int) :
    (rows.foldl (fun acc q => q.migrateRow soft changes acc) acc).1 -
        (rows.foldl (fun acc q => q.migrateRow soft changes acc) acc).2 =
      acc.1 - acc.2 + (rows.map (MigrateRow.left soft changes)).sum := by
  induction rows generalizing acc with
  | nil => simp
  | cons q rows ih =>
    rw [foldl_cons, ih, map_cons, sum_cons, MigrateRow.migrateRow, MigrateRow.left]
    split_ifs with hskip
    · simp only
      omega
    · have : ¬0 < q.placementCheck soft changes := fun h => hskip (.inl h)
      omega

end LStore.Lun
