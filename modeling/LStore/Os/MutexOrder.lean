import LStore.Base.LockOrder

/-!
# The order of the object mutexes

The file-based object service hashes paths to the slots of one table of mutexes. Moves and hard
links take two of them by the order of their slots, and `osf_multi_lock` those of an object and
of the objects that its attributes are links to.

## Implementation notes

A mutex is its slot. What a call finds on disk is given: the texts of the links, empty for other
attributes, and the old destinations that a move has put aside and removes under its own mutexes.
-/

namespace LStore.Os.MutexOrder

open List Base.LockOrder Base.Reach

abbrev Path := List Char

/-- The table of the mutexes and the slot of each path. -/
structure LockTable where
  internalLockSize : Nat
  osfRetrieveLock : Path → Nat
  osfRetrieveLock_lt : ∀ path, osfRetrieveLock path < internalLockSize

variable (t : LockTable)

/-- The loop that peels the name of the attribute off a link, from index `j` down. -/
def peelLoop (linkname : Path) : Nat → Nat
  | 0 => 0
  | j + 1 => if linkname.getD (j + 1) ' ' = '\n' then j + 1 else peelLoop linkname j

/-- The object behind a link: what stands before the last line break, and mostly nothing. -/
def linkObject (linkname : Path) : Path := linkname.take (peelLoop linkname (linkname.length - 1))

/-- `lock_slot`: the slots of the object and of the link targets, each once, as they are found. -/
def lockSlots (fd : Path) (links : List Path) : List Nat :=
  links.foldl (fun slots linkname =>
    let slot := t.osfRetrieveLock (linkObject linkname)
    if linkname = [] ∨ slot ∈ slots then slots else slots ++ [slot])
    [t.osfRetrieveLock fd]

/-- The inner loop: `small_slot` and `small_index`. It looks at index `i` in each round. -/
def smallest (maxIndex : Nat) (lockSlot : List Nat) (i : Nat) : Option Nat × Nat :=
  lockSlot.foldl (fun small _ =>
    if lockSlot.getD i 0 < small.2 then (some i, lockSlot.getD i 0) else small) (none, maxIndex)

/-- The loop that locks the mutexes. -/
def lockLoop (maxIndex : Nat) (lockTable : List Nat) : List Nat → List Nat → List (Act Nat)
  | [], _ => []
  | i :: todo, lockSlot =>
    match (smallest maxIndex lockSlot i).1 with
    | none => lockLoop maxIndex lockTable todo lockSlot
    | some k =>
      .lock (lockTable.getD k 0) :: lockLoop maxIndex lockTable todo (lockSlot.set k maxIndex)

def osfMultiLock (fd : Path) (links : List Path) : List (Act Nat) :=
  lockLoop t.internalLockSize (lockSlots t fd links) (range (lockSlots t fd links).length)
    (lockSlots t fd links)

def osfMultiUnlock (fd : Path) (links : List Path) : List (Act Nat) :=
  (lockSlots t fd links).map .unlock

/-- Two slots in their order; one slot is locked once. -/
def lockPair (a b : Nat) : List Nat := if a < b then [a, b] else if b < a then [b, a] else [a]

def unlockPair (a b : Nat) : List Nat := if a = b then [a] else [a, b]

/-- A part of a call with the mutexes of two paths locked. -/
def underPair (a b : Path) (acts : List (Act Nat)) : List (Act Nat) :=
  under (lockPair (t.osfRetrieveLock a) (t.osfRetrieveLock b)) acts
    (unlockPair (t.osfRetrieveLock a) (t.osfRetrieveLock b))

/-- The calls on objects, with what they find. -/
inductive Op where
  | getMultipleAttr (fd : Path) (links : List Path)
  | setMultipleAttr (fd : Path) (links : List Path)
  | moveObject (src dest : Path) (removed : List Path)
  | removeObject (path : Path)
  | hardlinkObject (link dest : Path)

/-- One mutex and what is done under it; the reading of attributes begins so too. -/
def lockOne (path : Path) : List (Act Nat) :=
  under [t.osfRetrieveLock path] [] [t.osfRetrieveLock path]

def Op.acts : Op → List (Act Nat)
  | .getMultipleAttr fd links =>
    lockOne t fd ++ (osfMultiLock t fd links ++ osfMultiUnlock t fd links)
  | .setMultipleAttr fd links => osfMultiLock t fd links ++ osfMultiUnlock t fd links
  | .moveObject src dest removed => underPair t src dest (removed.flatMap (lockOne t))
  | .removeObject path => lockOne t path
  | .hardlinkObject link dest => underPair t link dest []

/-- The links are found in the order of their slots, and a moved-aside destination has a slot
above those of the move. -/
def Op.Rising : Op → Prop
  | .getMultipleAttr fd links | .setMultipleAttr fd links =>
    (lockSlots t fd links).Pairwise (· < ·)
  | .moveObject src dest removed => ∀ path ∈ removed,
      t.osfRetrieveLock src < t.osfRetrieveLock path ∧
        t.osfRetrieveLock dest < t.osfRetrieveLock path
  | .removeObject _ | .hardlinkObject _ _ => True

variable {t} {held : Finset Nat} {l : List Nat}

theorem smallest_eq {maxIndex i x : Nat} {lockSlot : List Nat} (hx : lockSlot.getD i 0 = x)
    (hlt : x < maxIndex) (hne : lockSlot ≠ []) : smallest maxIndex lockSlot i = (some i, x) := by
  obtain ⟨y, l, hl⟩ := exists_cons_of_ne_nil hne
  rw [smallest, hx, hl, foldl_cons, if_pos hlt]
  exact foldl_fixed' (fun _ => if_neg (lt_irrefl x)) l

/-- The mutexes are locked in the order in which they were found. -/
theorem lockLoop_eq {maxIndex : Nat} (pre pre' : List Nat) (hlen : pre'.length = pre.length)
    (hlt : ∀ x ∈ l, x < maxIndex) :
    lockLoop maxIndex (pre ++ l) (range' pre.length l.length) (pre' ++ l) = l.map .lock := by
  induction l generalizing pre pre' with
  | nil => rfl
  | cons x l ih =>
    obtain ⟨hx, hl⟩ := forall_mem_cons.mp hlt
    have hsmall : smallest maxIndex (pre' ++ x :: l) pre.length = (some pre.length, x) :=
      smallest_eq (by simp [← hlen]) hx (by simp)
    have hrest := ih (pre ++ [x]) (pre' ++ [maxIndex]) (by simp [hlen]) hl
    simp only [append_assoc, singleton_append, length_append, length_singleton] at hrest
    rw [length_cons, range'_succ, lockLoop, hsmall]
    simpa [← hlen] using hrest

theorem lockSlots_lt (fd : Path) (links : List Path) :
    ∀ x ∈ lockSlots t fd links, x < t.internalLockSize := by
  unfold lockSlots
  refine foldlRecOn links _ (motive := fun slots => ∀ x ∈ slots, x < t.internalLockSize)
    (by simpa using t.osfRetrieveLock_lt fd) fun slots hslots link _ => ?_
  dsimp only
  split_ifs
  · exact hslots
  · exact forall_mem_append.mpr ⟨hslots, by simpa using t.osfRetrieveLock_lt _⟩

theorem multi_eq (fd : Path) (links : List Path) :
    osfMultiLock t fd links ++ osfMultiUnlock t fd links =
      under (lockSlots t fd links) [] (lockSlots t fd links) := by
  have hlocks : osfMultiLock t fd links = (lockSlots t fd links).map .lock := by
    simpa [osfMultiLock, range_eq_range'] using lockLoop_eq [] [] rfl (lockSlots_lt fd links)
  rw [hlocks]
  rfl

theorem lockPair_pairwise (a b : Nat) : (lockPair a b).Pairwise (· < ·) := by
  unfold lockPair
  split_ifs <;> simp [*]

theorem mem_lockPair {a b x : Nat} : x ∈ lockPair a b ↔ x = a ∨ x = b := by
  unfold lockPair
  split_ifs <;> grind

theorem lockPair_subset (a b : Nat) : lockPair a b ⊆ unlockPair a b := by
  intro x hx
  rw [mem_lockPair] at hx
  unfold unlockPair
  split_ifs <;> grind

theorem inOrder_removed {removed : List Path} : InOrder held (removed.flatMap (lockOne t)) ↔
    ∀ path ∈ removed, ∀ h ∈ held, h < t.osfRetrieveLock path := by
  induction removed with
  | nil => simp [InOrder]
  | cons path removed ih =>
    rw [flatMap_cons, forall_mem_cons, ← ih]
    refine and_congr_right fun hpath => ?_
    have hnot : t.osfRetrieveLock path ∉ held := fun hmem => lt_irrefl _ (hpath _ hmem)
    change InOrder ((insert _ held).erase _) _ ↔ _
    rw [Finset.erase_insert hnot]
    rfl

theorem heldAfter_removed {removed : List Path} :
    heldAfter held (removed.flatMap (lockOne t)) ⊆ held := by
  induction removed generalizing held with
  | nil => simp [heldAfter]
  | cons path removed ih => exact ih.trans (Finset.erase_insert_subset _ _)

theorem heldAfter_lockOne (path : Path) : heldAfter ∅ (lockOne t path) = ∅ :=
  heldAfter_under (Subset.refl _) (Finset.Subset.refl _)

theorem heldAfter_acts (op : Op) : heldAfter ∅ (op.acts t) = ∅ := by
  cases op with
  | getMultipleAttr fd links =>
    rw [Op.acts, heldAfter_append, heldAfter_lockOne, multi_eq]
    exact heldAfter_under (Subset.refl _) (Finset.Subset.refl _)
  | setMultipleAttr fd links =>
    rw [Op.acts, multi_eq]
    exact heldAfter_under (Subset.refl _) (Finset.Subset.refl _)
  | moveObject src dest removed => exact heldAfter_under (lockPair_subset _ _) heldAfter_removed
  | removeObject path => exact heldAfter_lockOne path
  | hardlinkObject link dest =>
    exact heldAfter_under (lockPair_subset _ _) (Finset.Subset.refl _)

theorem inOrder_lockOne (path : Path) : InOrder ∅ (lockOne t path) :=
  inOrder_under.mpr ⟨pairwise_singleton _ _, trivial⟩

theorem inOrder_acts (op : Op) : InOrder ∅ (op.acts t) ↔ op.Rising t := by
  cases op with
  | getMultipleAttr fd links =>
    rw [Op.acts, inOrder_append, heldAfter_lockOne, multi_eq, inOrder_under]
    exact (and_iff_right (inOrder_lockOne fd)).trans (and_iff_left trivial)
  | setMultipleAttr fd links =>
    rw [Op.acts, multi_eq, inOrder_under]
    exact and_iff_left trivial
  | moveObject src dest removed =>
    rw [Op.acts, underPair, inOrder_under, inOrder_removed]
    simp [lockPair_pairwise, mem_lockPair, Op.Rising]
  | removeObject path => exact iff_true_intro (inOrder_lockOne path)
  | hardlinkObject link dest =>
    exact iff_true_intro (inOrder_under.mpr ⟨lockPair_pairwise _ _, trivial⟩)

theorem inOrder_calls {ops : List Op} :
    InOrder ∅ (ops.flatMap (Op.acts t)) ↔ ∀ op ∈ ops, op.Rising t := by
  induction ops with
  | nil => simp [InOrder]
  | cons op ops ih =>
    rw [flatMap_cons, inOrder_append, heldAfter_acts, inOrder_acts, ih, forall_mem_cons]

/-- Two slots, the second one for the object `a` alone. -/
def twoSlots : LockTable where
  internalLockSize := 2
  osfRetrieveLock path := if path = ['a'] then 1 else 0
  osfRetrieveLock_lt path := by split <;> decide

/-- One thread sets an attribute of `a` that is a link, the other one moves `b` to `a`. -/
def crossed : Bool → List Op
  | false => [.setMultipleAttr ['a'] [['b', '/', 'c']]]
  | true => [.moveObject ['b'] ['a'] []]

end LStore.Os.MutexOrder
