import LStore.Linear.ReadWrite

/-!
# Growing and shrinking a linear segment

`_sl_grow` plans a longer last block and new blocks behind it, waits for the requests
and then changes the block list. At the end it writes a byte to each changed block; a
failure there is reported although the blocks are in place. `_sl_shrink` shortens the
block across the new size and drops those behind it, whatever its requests report.

## Implementation notes

Requests are grouped as the source waits for them: the enlargement of the last block,
the allocation of the new ones, the writes at the end, the removals. A wait for no
request at all, which reads through a null pointer, is `none`.
-/

namespace LStore.Linear

open IntervalList Segment List Option

/-- The private state of a linear segment. -/
structure Seglin where
  blocks : List SeglinSlot
  totalSize : Int
  usedSize : Int

def Seglin.empty : Seglin := ⟨[], 0, 0⟩

/-- How the requests of a call end, and the data blocks that are allocated. -/
structure Outcome where
  expand : Bool
  alloc : Bool
  mark : Bool
  remove : Bool
  data : Int → Nat

/-- A call of `_sl_truncate`, or the growing of `seglin_write_func`. -/
inductive SizeCall where
  | truncate (newSize : Int)
  | write (iov : List ExIovec)

variable (maxBlockSize excessBlockSize : Int)

/-- A block with another length. -/
def SeglinSlot.resize (b : SeglinSlot) (dsize : Int) : SeglinSlot :=
  { b with len := dsize, segEnd := b.segOffset + dsize - 1 }

/-- The last block and its new length when it is enlarged, and where new blocks start. -/
def growPlan (s : Seglin) (newSize : Int) : Option (Option (SeglinSlot × Int) × Int) :=
  if 0 < s.totalSize then
    match search (s.totalSize - 1) s.totalSize s.blocks with
    | [] => none
    | b :: _ =>
      if b.len < maxBlockSize then
        let dsize := min (newSize - b.segOffset) maxBlockSize
        some (some (b, dsize), b.segOffset + dsize)
      else
        some (none, b.segEnd + 1)
  else
    some (none, s.totalSize)

/-- The new blocks from `off` on. -/
def newBlocks (newSize : Int) (data : Int → Nat) : Nat → Int → List SeglinSlot
  | 0, _ => []
  | fuel + 1, off =>
    if off < newSize then
      let len := if newSize < off + maxBlockSize then newSize - off else maxBlockSize
      ⟨data off, 0, off, off + len - 1, len⟩ ::
        newBlocks newSize data fuel (off + maxBlockSize)
    else []

/-- The block list with the last block enlarged. -/
def enlargeLast (blocks : List SeglinSlot) : Option (SeglinSlot × Int) → List SeglinSlot
  | none => blocks
  | some (b, dsize) => insertByLo (b.resize dsize) (blocks.erase b)

/-- `_sl_grow`: the segment and whether the call succeeds. -/
def slGrow (s : Seglin) (newSizeArg : Int) (o : Outcome) : Option (Seglin × Bool) :=
  let newSize := if newSizeArg < 0 then -newSizeArg else newSizeArg
  if newSizeArg < 0 ∧ newSize < s.totalSize then some (s, true)
  else
    (growPlan maxBlockSize s newSize).bind fun plan =>
      let new := newBlocks maxBlockSize newSize o.data (newSize - plan.2).toNat plan.2
      if plan.1 = none ∧ new = [] then none
      else if (plan.1 = none ∨ o.expand) ∧ (new = [] ∨ o.alloc) then
        some ({ s with
          blocks := new.foldl (fun bs b => insertByLo b bs) (enlargeLast s.blocks plan.1)
          totalSize := newSize }, o.mark)
      else some (s, false)

/-- `_sl_shrink`. -/
def slShrink (s : Seglin) (newSize : Int) (o : Outcome) : Option (Seglin × Bool) :=
  match search newSize s.totalSize s.blocks with
  | [] => none
  | b :: rest =>
    let dsize := newSize - b.segOffset
    let blocks :=
      if dsize = 0 then (b :: rest).reverse.foldl List.erase s.blocks
      else insertByLo (b.resize dsize) ((rest.reverse.foldl List.erase s.blocks).erase b)
    some (⟨blocks, newSize, newSize⟩, o.remove)

/-- `_sl_truncate`. -/
def slTruncate (s : Seglin) (newSize : Int) (o : Outcome) : Option (Seglin × Bool) :=
  if newSize < 0 then slGrow maxBlockSize s newSize o
  else if newSize < s.totalSize then slShrink s newSize o
  else if s.totalSize < newSize then slGrow maxBlockSize s newSize o
  else some (s, true)

/-- The last offset that a write reaches, at least 0. -/
def maxPos (iov : List ExIovec) : Int := iov.foldl (fun m v => max m (v.offset + v.len - 1)) 0

/-- The size a call hands to `_sl_truncate`, if it does. -/
def SizeCall.size (s : Seglin) : SizeCall → Option Int
  | .truncate newSize => some newSize
  | .write iov =>
    if s.totalSize ≤ maxPos iov ∧ s.totalSize < maxPos iov + excessBlockSize then
      some (maxPos iov + excessBlockSize)
    else none

/-- The size of the written part after a call. -/
def SizeCall.used (s : Seglin) : SizeCall → Seglin
  | .truncate _ => s
  | .write iov => { s with usedSize := max s.usedSize (maxPos iov + 1) }

/-- A call: the segment after it and, when it changes the size, the status of that. -/
def sizeStep (s : Seglin) (c : SizeCall × Outcome) : Option (Seglin × Bool) :=
  match c.1.size excessBlockSize s with
  | none => some (c.1.used s, true)
  | some newSize => (slTruncate maxBlockSize s newSize c.2).map fun r => (c.1.used r.1, r.2)

/-- The blocks cover `[0, totalSize)` one after another and none is too long. -/
structure SizeOk (maxBlockSize : Int) (s : Seglin) : Prop where
  stacked : Stacked 0 s.blocks s.totalSize
  bounded : ∀ b ∈ s.blocks, b.len ≤ maxBlockSize

/-- The call runs `_sl_grow`. -/
def RunsGrow (excessBlockSize : Int) (s : Seglin) (c : SizeCall) : Prop :=
  ∃ newSize, c.size excessBlockSize s = some newSize ∧ (newSize < 0 ∨ s.totalSize < newSize)

/-- Every call of the run returns, leaves a correct layout, and changes nothing when it is
a grow that fails. -/
def LayoutKept (maxBlockSize excessBlockSize : Int) :
    Seglin → List (SizeCall × Outcome) → Prop
  | _, [] => True
  | s, c :: calls => ∃ s' ok, sizeStep maxBlockSize excessBlockSize s c = some (s', ok) ∧
      SizeOk maxBlockSize s' ∧
      (RunsGrow excessBlockSize s c.1 → ok = false →
        s'.blocks = s.blocks ∧ s'.totalSize = s.totalSize) ∧
      LayoutKept maxBlockSize excessBlockSize s' calls

/-- The last block can be enlarged. -/
def LastShort (maxBlockSize : Int) (s : Seglin) : Prop :=
  ∃ b ∈ s.blocks, b.segEnd + 1 = s.totalSize ∧ b.len < maxBlockSize

/-- A grow to `newSize` needs new blocks. -/
def NeedsBlocks (maxBlockSize : Int) (s : Seglin) (newSize : Int) : Prop :=
  s.totalSize < newSize ∧
    ∀ b ∈ s.blocks, b.segEnd + 1 = s.totalSize → b.segOffset + maxBlockSize < newSize

/-- What a call of `_sl_truncate` has to meet: a reservation of just the present size finds
a last block to enlarge, and the writes at the end of a grow whose requests succeed do
not fail. -/
structure GrowsWell (maxBlockSize : Int) (s : Seglin) (newSize : Int) (o : Outcome) : Prop where
  enlarges : newSize < 0 → -newSize = s.totalSize → LastShort maxBlockSize s
  marks : s.totalSize < |newSize| → (LastShort maxBlockSize s → o.expand = true) →
    (NeedsBlocks maxBlockSize s |newSize| → o.alloc = true) → o.mark = true

/-- Every call of the run meets it, in the state the calls before it leave. -/
def AllGrowWell (maxBlockSize excessBlockSize : Int) :
    Seglin → List (SizeCall × Outcome) → Prop
  | _, [] => True
  | s, c :: calls =>
    (∀ newSize, c.1.size excessBlockSize s = some newSize →
      GrowsWell maxBlockSize s newSize c.2) ∧
    ∀ s' ok, sizeStep maxBlockSize excessBlockSize s c = some (s', ok) →
      AllGrowWell maxBlockSize excessBlockSize s' calls

variable {a m e l u : Int} {pre post : List SeglinSlot} {b : SeglinSlot}

theorem stacked_append : Stacked a (pre ++ post) e ↔ ∃ m, Stacked a pre m ∧ Stacked m post e := by
  induction pre generalizing a with
  | nil => simp [Stacked]
  | cons s pre ih =>
    simp only [cons_append, Stacked, ih]
    constructor
    · rintro ⟨hs, hlen, hend, m, hpre, hpost⟩
      exact ⟨m, ⟨hs, hlen, hend, hpre⟩, hpost⟩
    · rintro ⟨m, ⟨hs, hlen, hend, hpre⟩, hpost⟩
      exact ⟨hs, hlen, hend, m, hpre, hpost⟩

section

variable (h : Stacked a pre m)
include h

/-- Inserting a block behind all others appends it. -/
theorem Stacked.insert_last (hb : m ≤ b.segOffset) : insertByLo b pre = pre ++ [b] := by
  refine insertByLo_last fun x hx => ?_
  obtain ⟨_, hlen, _, hend⟩ := h.mem hx
  simp only [spanned_lo]
  omega

theorem Stacked.foldl_insert (hpost : Stacked m post e) :
    post.foldl (fun bs b => insertByLo b bs) pre = pre ++ post := by
  induction post generalizing pre m with
  | nil => simp
  | cons b post ih =>
    obtain ⟨hb, hlen, hend, hrest⟩ := hpost
    have hpre : Stacked a (pre ++ [b]) (m + b.len) :=
      stacked_append.mpr ⟨m, h, hb, hlen, hend, rfl⟩
    rw [foldl_cons, h.insert_last hb.ge, ih hpre hrest, append_assoc,
      singleton_append]

theorem Stacked.notMem (hb : m ≤ b.segOffset) : b ∉ pre := by
  intro hmem
  obtain ⟨_, hlen, _, hend⟩ := h.mem hmem
  omega

/-- Popping the blocks behind `pre` off the stack takes them out of the list. -/
theorem Stacked.foldl_erase (hpost : Stacked m post e) :
    post.reverse.foldl List.erase (pre ++ post) = pre := by
  induction post using List.reverseRecOn generalizing e with
  | nil => simp
  | append_singleton post b ih =>
    obtain ⟨k, hpost, hb, hlen, _, _⟩ := stacked_append.mp hpost
    have hnot : b ∉ pre ++ post := (stacked_append.mpr ⟨m, h, hpost⟩).notMem hb.ge
    rw [reverse_append, reverse_singleton, singleton_append, foldl_cons,
      ← append_assoc, erase_append_right _ hnot, erase_cons_head, append_nil,
      ih hpost]

/-- A search from an offset of block `b` on finds that block and those behind it. -/
theorem Stacked.search_from (hpost : Stacked m (b :: post) e) (hl : m ≤ l) (hb : l ≤ b.segEnd)
    (hu : e ≤ u + 1) : search l u (pre ++ b :: post) = b :: post := by
  have hpre : search l u pre = [] := by
    refine filter_eq_nil_iff.mpr fun x hx => ?_
    obtain ⟨_, hlen, hend, hle⟩ := h.mem hx
    rw [decide_eq_true_eq]
    simp only [Meets, spanned_lo, spanned_hi]
    omega
  have hall : search l u (b :: post) = b :: post := by
    refine filter_eq_self.mpr fun x hx => ?_
    obtain ⟨_, hlen, hend, hle⟩ := hpost.mem hx
    rw [decide_eq_true_eq]
    simp only [Meets, spanned_lo, spanned_hi]
    rcases mem_cons.mp hx with rfl | hx
    · omega
    · obtain ⟨hbo, _, hbe, hrest⟩ := hpost
      have := (hrest.mem hx).1
      omega
  rw [search, filter_append]
  exact (congrArg₂ (· ++ ·) hpre hall).trans (nil_append _)

end

/-- Blocks that reach `l` split at the one that holds it. -/
theorem Stacked.split_at {blocks} (h : Stacked a blocks e) (hl : a ≤ l) (hlt : l < e) :
    ∃ pre b post m, blocks = pre ++ b :: post ∧ Stacked a pre m ∧
      Stacked m (b :: post) e ∧ m ≤ l ∧ l ≤ b.segEnd := by
  obtain ⟨b, hb, hlo, hhi⟩ := h.covers hl hlt
  obtain ⟨pre, post, rfl⟩ := append_of_mem hb
  obtain ⟨m, hpre, hpost⟩ := stacked_append.mp h
  exact ⟨pre, b, post, m, rfl, hpre, hpost, hpost.1 ▸ hlo, hhi⟩

theorem newBlocks_spec {maxBlockSize newSize : Int} (hmax : 1 ≤ maxBlockSize) (data : Int → Nat)
    (fuel : Nat) {off} (hoff : off ≤ newSize) (hfuel : newSize - off ≤ fuel) :
    Stacked off (newBlocks maxBlockSize newSize data fuel off) newSize ∧
      (∀ b ∈ newBlocks maxBlockSize newSize data fuel off, b.len ≤ maxBlockSize) ∧
      (newBlocks maxBlockSize newSize data fuel off = [] ↔ off = newSize) := by
  induction fuel generalizing off with
  | zero =>
    have : off = newSize := by omega
    exact ⟨this, by simp [newBlocks], by simp [newBlocks, this]⟩
  | succ fuel ih =>
    rw [newBlocks]
    split_ifs with hlt hlast
    · -- the last block ends at the new size
      have hrest : newBlocks maxBlockSize newSize data fuel (off + maxBlockSize) = [] := by
        cases fuel with
        | zero => rfl
        | succ fuel => exact if_neg (by omega)
      rw [hrest]
      refine ⟨⟨rfl, by dsimp only; omega, rfl, ?_⟩, ?_, by simp; omega⟩
      · change off + (newSize - off) = newSize
        omega
      · simp
        omega
    · obtain ⟨hst, hle, _⟩ := ih (show off + maxBlockSize ≤ newSize by omega) (by omega)
      exact ⟨⟨rfl, hmax, rfl, hst⟩, by simpa using hle, by simp; omega⟩
    · exact ⟨by change off = newSize; omega, by simp, by simp; omega⟩

variable {maxBlockSize excessBlockSize newSize : Int} {s : Seglin} {o : Outcome}

section

variable (h : SizeOk maxBlockSize s)
include h

/-- A segment that is not empty has a last block. -/
theorem SizeOk.exists_last (hpos : 0 < s.totalSize) :
    ∃ pre b, s.blocks = pre ++ [b] ∧ Stacked 0 pre b.segOffset ∧ 1 ≤ b.len ∧
      b.segEnd = b.segOffset + b.len - 1 ∧ b.segOffset + b.len = s.totalSize := by
  have hst := h.stacked
  rcases eq_nil_or_concat s.blocks with hnil | ⟨pre, b, heq⟩
  · rw [hnil] at hst
    have : 0 = s.totalSize := hst
    omega
  · rw [heq, concat_eq_append] at hst
    obtain ⟨m, hpre, hb, hlen, hend, htotal⟩ := stacked_append.mp hst
    rw [← hb] at hpre htotal
    exact ⟨pre, b, by rw [heq, concat_eq_append], hpre, hlen, hend, htotal⟩

/-- The plan of a grow: the blocks with the last one enlarged end where the new ones
start. -/
theorem growPlan_spec (hmax : 1 ≤ maxBlockSize) (hle : s.totalSize ≤ newSize) :
    ∃ plan, growPlan maxBlockSize s newSize = some plan ∧
      Stacked 0 (enlargeLast s.blocks plan.1) plan.2 ∧
      (∀ b ∈ enlargeLast s.blocks plan.1, b.len ≤ maxBlockSize) ∧ plan.2 ≤ newSize ∧
      (plan.1 = none ↔ ¬LastShort maxBlockSize s) ∧
      (plan.2 = newSize ↔ ¬NeedsBlocks maxBlockSize s newSize) ∧
      (newSize = s.totalSize → enlargeLast s.blocks plan.1 = s.blocks) := by
  by_cases hpos : 0 < s.totalSize
  · obtain ⟨pre, b, hblocks, hpre, hlen, hend, htotal⟩ := h.exists_last hpos
    have hlast : Stacked b.segOffset [b] s.totalSize := ⟨rfl, hlen, hend, htotal⟩
    have hfound : search (s.totalSize - 1) s.totalSize s.blocks = [b] := by
      rw [hblocks]
      exact hpre.search_from hlast (by omega) (by omega) (by omega)
    have hends : ∀ x ∈ s.blocks, x.segEnd + 1 = s.totalSize → x = b := by
      intro x hx hxe
      rw [hblocks] at hx
      rcases mem_append.mp hx with hx | hx
      · obtain ⟨_, _, hxend, hxle⟩ := hpre.mem hx
        omega
      · exact mem_singleton.mp hx
    have hshort : LastShort maxBlockSize s ↔ b.len < maxBlockSize := by
      constructor
      · rintro ⟨x, hx, hxe, hxlen⟩
        rwa [hends x hx hxe] at hxlen
      · exact fun hlt => ⟨b, by simp [hblocks], by omega, hlt⟩
    have hneeds : NeedsBlocks maxBlockSize s newSize ↔
        s.totalSize < newSize ∧ b.segOffset + maxBlockSize < newSize := by
      refine and_congr_right fun _ => ⟨fun hall => hall b (by simp [hblocks]) (by omega), ?_⟩
      intro hlt x hx hxe
      rwa [hends x hx hxe]
    rw [hshort, hneeds, growPlan, if_pos hpos, hfound]
    dsimp only
    split_ifs with hlt
    · have henlarge (dsize : Int) : enlargeLast s.blocks (some (b, dsize)) =
          pre ++ [b.resize dsize] := by
        rw [enlargeLast, hblocks, erase_append_right _ (hpre.notMem le_rfl),
          erase_cons_head, append_nil]
        exact hpre.insert_last le_rfl
      refine ⟨_, rfl, ?_, ?_, by dsimp only; omega, by simp [hlt], by dsimp only; omega, ?_⟩
      · rw [henlarge]
        exact stacked_append.mpr ⟨_, hpre, rfl, by simp only [SeglinSlot.resize]; omega, rfl, rfl⟩
      · rw [henlarge]
        intro x hx
        rcases mem_append.mp hx with hx | hx
        · exact h.bounded x (by simp [hblocks, hx])
        · rw [mem_singleton.mp hx]
          simp only [SeglinSlot.resize]
          omega
      · intro hsame
        have hdsize : min (newSize - b.segOffset) maxBlockSize = b.len := by omega
        have hresize : b.resize b.len = b := by
          rw [SeglinSlot.resize, ← hend]
        rw [henlarge, hdsize, hresize, hblocks]
    · refine ⟨_, rfl, ?_, h.bounded, by dsimp only; omega, by simp [hlt], by dsimp only; omega,
        fun _ => rfl⟩
      have : b.segEnd + 1 = s.totalSize := by omega
      rw [this]
      exact h.stacked
  · have hnil : s.blocks = [] := by
      cases hb : s.blocks with
      | nil => rfl
      | cons b rest =>
        obtain ⟨hlo, hlen, _, hle⟩ := h.stacked.mem (show b ∈ s.blocks by simp [hb])
        omega
    refine ⟨(none, s.totalSize), by rw [growPlan, if_neg hpos], h.stacked, h.bounded, hle, ?_, ?_,
      fun _ => rfl⟩
    · simp [LastShort, hnil]
    · simp only [NeedsBlocks, hnil]
      simp
      omega

/-- What `_sl_grow` does beyond the early return, by the requests it needs. -/
theorem slGrow_spec (hmax : 1 ≤ maxBlockSize) {arg}
    (harg : (arg < 0 ∧ -arg = newSize) ∨ (0 ≤ arg ∧ arg = newSize)) (hle : s.totalSize ≤ newSize) :
    (¬LastShort maxBlockSize s → newSize = s.totalSize → slGrow maxBlockSize s arg o = none) ∧
      (LastShort maxBlockSize s ∨ s.totalSize < newSize →
        (LastShort maxBlockSize s → o.expand = true) →
        (NeedsBlocks maxBlockSize s newSize → o.alloc = true) →
        ∃ s', slGrow maxBlockSize s arg o = some (s', o.mark) ∧ SizeOk maxBlockSize s' ∧
          s'.totalSize = newSize ∧ (newSize = s.totalSize → s'.blocks = s.blocks)) ∧
      (LastShort maxBlockSize s ∨ s.totalSize < newSize →
        ¬((LastShort maxBlockSize s → o.expand = true) ∧
          (NeedsBlocks maxBlockSize s newSize → o.alloc = true)) →
        slGrow maxBlockSize s arg o = some (s, false)) := by
  obtain ⟨plan, hplan, hst, hbound, hend, hnone, hnew, hsame⟩ := growPlan_spec h hmax hle
  obtain ⟨hst', hbound', hnil⟩ := newBlocks_spec hmax o.data (newSize - plan.2).toNat hend (by omega)
  have hsize : (if arg < 0 then -arg else arg) = newSize := by
    split_ifs <;> omega
  have hearly : ¬(arg < 0 ∧ newSize < s.totalSize) := by omega
  have hneeds : ¬LastShort maxBlockSize s → s.totalSize < newSize →
      NeedsBlocks maxBlockSize s newSize := by
    intro hshort hlt
    refine ⟨hlt, fun b hb hbe => ?_⟩
    obtain ⟨_, _, hbend, _⟩ := h.stacked.mem hb
    by_contra hge
    exact hshort ⟨b, hb, hbe, by omega⟩
  rw [← hnil] at hnew
  rw [slGrow]
  simp only [hsize, hearly, if_false, hplan, bind_some]
  set new := newBlocks maxBlockSize newSize o.data (newSize - plan.2).toNat plan.2
  have hidle : (plan.1 = none ∧ new = []) ↔ ¬LastShort maxBlockSize s ∧ newSize = s.totalSize := by
    rw [hnone, hnew]
    constructor
    · rintro ⟨hshort, hno⟩
      refine ⟨hshort, ?_⟩
      by_contra hne
      exact hno (hneeds hshort (by omega))
    · rintro ⟨hshort, rfl⟩
      exact ⟨hshort, fun hneed => absurd hneed.1 (Int.lt_irrefl _)⟩
  have hgranted : ((plan.1 = none ∨ o.expand = true) ∧ (new = [] ∨ o.alloc = true)) ↔
      (LastShort maxBlockSize s → o.expand = true) ∧
        (NeedsBlocks maxBlockSize s newSize → o.alloc = true) := by
    rw [hnone, hnew, ← imp_iff_not_or, ← imp_iff_not_or]
  have hbusy (hwork : LastShort maxBlockSize s ∨ s.totalSize < newSize) :
      ¬(plan.1 = none ∧ new = []) := by
    rw [hidle]
    rintro ⟨hshort, rfl⟩
    simp [hshort] at hwork
  refine ⟨fun hshort heq => if_pos (hidle.mpr ⟨hshort, heq⟩), ?_, ?_⟩
  · intro hwork hexpand halloc
    rw [if_neg (hbusy hwork), if_pos (hgranted.mpr ⟨hexpand, halloc⟩)]
    refine ⟨_, rfl, ⟨?_, ?_⟩, rfl, ?_⟩
    · rw [hst.foldl_insert hst']
      exact stacked_append.mpr ⟨_, hst, hst'⟩
    · rw [hst.foldl_insert hst']
      intro b hb
      exact (mem_append.mp hb).elim (hbound b) (hbound' b)
    · intro heq
      have hempty : new = [] := hnew.mpr fun hneed => by
        have := hneed.1
        omega
      rw [hst.foldl_insert hst', hempty, append_nil, hsame heq]
  · intro hwork hdenied
    rw [if_neg (hbusy hwork), if_neg (mt hgranted.mp hdenied)]

/-- A shrink leaves a correct layout of the new size. -/
theorem slShrink_spec (hnn : 0 ≤ newSize) (hlt : newSize < s.totalSize) :
    ∃ s', slShrink s newSize o = some (s', o.remove) ∧ SizeOk maxBlockSize s' := by
  obtain ⟨pre, b, post, m, hblocks, hpre, hpost, hm, hb⟩ := h.stacked.split_at hnn hlt
  have hfound : search newSize s.totalSize s.blocks = b :: post := by
    rw [hblocks]
    exact hpre.search_from hpost hm hb (by omega)
  obtain ⟨hbm, hlen, hend, hrest⟩ := id hpost
  have hbound : ∀ x ∈ pre, x.len ≤ maxBlockSize := fun x hx => h.bounded x (by simp [hblocks, hx])
  have hblen := h.bounded b (by simp [hblocks])
  rw [slShrink, hfound, hblocks]
  dsimp only
  by_cases hfull : newSize - b.segOffset = 0
  · rw [if_pos hfull, hpre.foldl_erase hpost]
    refine ⟨_, rfl, ?_, hbound⟩
    have : m = newSize := by omega
    exact this ▸ hpre
  · have hkept : Stacked 0 (pre ++ [b]) (m + b.len) :=
      stacked_append.mpr ⟨m, hpre, hbm, hlen, hend, rfl⟩
    rw [if_neg hfull, append_cons, hkept.foldl_erase hrest,
      erase_append_right _ (hpre.notMem hbm.ge), erase_cons_head, append_nil,
      Stacked.insert_last hpre (show m ≤ (b.resize (newSize - b.segOffset)).segOffset from hbm.ge)]
    refine ⟨_, rfl, stacked_append.mpr ⟨m, hpre, hbm, ?_, rfl, ?_⟩, ?_⟩
    · simp only [SeglinSlot.resize]
      omega
    · change m + (newSize - b.segOffset) = newSize
      omega
    · refine forall_mem_append.mpr ⟨hbound, forall_mem_singleton.mpr ?_⟩
      simp only [SeglinSlot.resize]
      omega

/-- One call of `_sl_truncate`. -/
theorem slTruncate_kept_iff (hmax : 1 ≤ maxBlockSize) :
    (∃ s' ok, slTruncate maxBlockSize s newSize o = some (s', ok) ∧ SizeOk maxBlockSize s' ∧
      (newSize < 0 ∨ s.totalSize < newSize → ok = false →
        s'.blocks = s.blocks ∧ s'.totalSize = s.totalSize)) ↔
      GrowsWell maxBlockSize s newSize o := by
  have htotal := h.stacked.le
  have harg : (newSize < 0 ∧ -newSize = |newSize|) ∨ (0 ≤ newSize ∧ newSize = |newSize|) := by
    rcases Int.lt_or_le newSize 0 with hneg | hnn
    · exact .inl ⟨hneg, (abs_of_neg hneg).symm⟩
    · exact .inr ⟨hnn, (abs_of_nonneg hnn).symm⟩
  by_cases hgrow : (newSize < 0 ∧ s.totalSize ≤ -newSize) ∨ s.totalSize < newSize
  · -- `_sl_grow` goes to work
    have hrun : slTruncate maxBlockSize s newSize o = slGrow maxBlockSize s newSize o := by
      rw [slTruncate]
      split_ifs <;> first | rfl | omega
    obtain ⟨hidle, hgranted, hdenied⟩ := slGrow_spec (o := o) h hmax harg (by omega)
    rw [hrun]
    by_cases hwork : LastShort maxBlockSize s ∨ s.totalSize < |newSize|
    · have hshort : newSize < 0 → -newSize = s.totalSize → LastShort maxBlockSize s :=
        fun _ heq => hwork.resolve_right (by omega)
      by_cases hok : (LastShort maxBlockSize s → o.expand = true) ∧
          (NeedsBlocks maxBlockSize s |newSize| → o.alloc = true)
      · obtain ⟨s', hs', hsize, hnew, hsame⟩ := hgranted hwork hok.1 hok.2
        rw [hs']
        constructor
        · rintro ⟨_, _, heq, _, hfail⟩
          cases heq
          refine ⟨hshort, fun hlt _ _ => ?_⟩
          by_contra hmark
          have := (hfail (by omega) (by simpa using hmark)).2
          omega
        · intro hwell
          refine ⟨s', o.mark, rfl, hsize, fun _ hmark => ?_⟩
          have heq : |newSize| = s.totalSize := by
            by_contra hne
            have := hwell.marks (by omega) hok.1 hok.2
            simp [this] at hmark
          exact ⟨hsame heq, by omega⟩
      · rw [hdenied hwork hok]
        refine ⟨fun _ => ⟨hshort, fun _ h₁ h₂ => absurd ⟨h₁, h₂⟩ hok⟩, fun _ => ?_⟩
        exact ⟨s, false, rfl, h, fun _ _ => ⟨rfl, rfl⟩⟩
    · obtain ⟨hlong, hnot⟩ := not_or.mp hwork
      rw [hidle hlong (by omega)]
      constructor
      · rintro ⟨_, _, heq, _⟩
        simp at heq
      · exact fun hwell => absurd (hwell.enlarges (by omega) (by omega)) hlong
  · refine iff_of_true ?_ ⟨by omega, fun hlt => by omega⟩
    rw [slTruncate]
    split_ifs with hneg hlt hgt
    · refine ⟨s, true, ?_, h, fun _ hok => nomatch hok⟩
      have hearly : newSize < 0 ∧ (if newSize < 0 then -newSize else newSize) < s.totalSize := by
        omega
      exact if_pos hearly
    · obtain ⟨s', hrun, hok⟩ := slShrink_spec (o := o) h (Int.not_lt.mp hneg) hlt
      exact ⟨s', _, hrun, hok, fun hgrows => by omega⟩
    · exact absurd (.inr hgt) hgrow
    · exact ⟨s, true, rfl, h, fun _ hok => nomatch hok⟩

omit h in
theorem SizeCall.used_eq (c : SizeCall) (s : Seglin) :
    (c.used s).blocks = s.blocks ∧ (c.used s).totalSize = s.totalSize := by
  cases c <;> exact ⟨rfl, rfl⟩

omit h in
theorem sizeOk_used_iff (c : SizeCall) : SizeOk maxBlockSize (c.used s) ↔ SizeOk maxBlockSize s := by
  cases c <;> exact ⟨fun h => { h with }, fun h => { h with }⟩

/-- One call of a run. -/
theorem sizeStep_kept_iff (hmax : 1 ≤ maxBlockSize) (c : SizeCall × Outcome) :
    (∃ s' ok, sizeStep maxBlockSize excessBlockSize s c = some (s', ok) ∧
      SizeOk maxBlockSize s' ∧ (RunsGrow excessBlockSize s c.1 → ok = false →
        s'.blocks = s.blocks ∧ s'.totalSize = s.totalSize)) ↔
      ∀ newSize, c.1.size excessBlockSize s = some newSize →
        GrowsWell maxBlockSize s newSize c.2 := by
  rw [sizeStep]
  cases hsize : c.1.size excessBlockSize s with
  | none =>
    refine iff_of_true ⟨_, true, rfl, (sizeOk_used_iff c.1).mpr h, fun _ hok => nomatch hok⟩ (by simp)
  | some n =>
    have hruns : RunsGrow excessBlockSize s c.1 ↔ n < 0 ∨ s.totalSize < n := by
      simp [RunsGrow, hsize]
    simp only [some.injEq, forall_eq']
    rw [← slTruncate_kept_iff h hmax, hruns]
    constructor
    · rintro ⟨s', ok, hrun, hok, hfail⟩
      obtain ⟨r, hr, heq⟩ := map_eq_some_iff.mp hrun
      cases heq
      simp only [c.1.used_eq r.1] at hfail
      exact ⟨r.1, r.2, hr, (sizeOk_used_iff c.1).mp hok, hfail⟩
    · rintro ⟨s', ok, hrun, hok, hfail⟩
      refine ⟨c.1.used s', ok, by rw [hrun]; rfl, (sizeOk_used_iff c.1).mpr hok, ?_⟩
      simpa only [c.1.used_eq s'] using hfail

/-- From a correct layout: a run keeps it exactly when its calls grow well. -/
theorem SizeOk.kept_of_calls_iff (hmax : 1 ≤ maxBlockSize) (calls : List (SizeCall × Outcome)) :
    LayoutKept maxBlockSize excessBlockSize s calls ↔
      AllGrowWell maxBlockSize excessBlockSize s calls := by
  induction calls generalizing s with
  | nil => exact Iff.rfl
  | cons c calls ih =>
    rw [LayoutKept, AllGrowWell, ← sizeStep_kept_iff h hmax c]
    constructor
    · rintro ⟨s', ok, hrun, hok, hfail, hrest⟩
      refine ⟨⟨s', ok, hrun, hok, hfail⟩, fun t ok' hrun' => ?_⟩
      obtain ⟨rfl, -⟩ := Prod.mk.inj (some.inj (hrun.symm.trans hrun'))
      exact (ih hok).mp hrest
    · rintro ⟨⟨s', ok, hrun, hok, hfail⟩, hrest⟩
      exact ⟨s', ok, hrun, hok, hfail, (ih hok).mpr (hrest s' ok hrun)⟩

end

/-- From the empty segment, whatever requests succeed: every call returns, leaves a correct
layout, and changes nothing when it is a grow that fails, exactly when every call grows
well. -/
theorem layoutKept_iff {maxBlockSize : Int} (hmax : 1 ≤ maxBlockSize) (excessBlockSize : Int)
    (calls : List (SizeCall × Outcome)) :
    LayoutKept maxBlockSize excessBlockSize Seglin.empty calls ↔
      AllGrowWell maxBlockSize excessBlockSize Seglin.empty calls := by
  have hempty : SizeOk maxBlockSize Seglin.empty := ⟨rfl, by simp [Seglin.empty]⟩
  exact hempty.kept_of_calls_iff hmax calls

/-- Every request succeeds. -/
def Outcome.good : Outcome := ⟨true, true, true, true, fun _ => 0⟩

theorem layoutKept_iff_grow :
    LayoutKept 4 2 Seglin.empty
      [(.truncate 6, Outcome.good), (.write [⟨5, 3⟩], Outcome.good)] := by
  refine (layoutKept_iff (by decide) 2 _).mpr ⟨fun newSize hsize => ?_, fun s' ok _ =>
    ⟨fun newSize hsize => ?_, fun _ _ _ => trivial⟩⟩
  · cases hsize
    exact ⟨fun hneg => absurd hneg (by decide), fun _ _ _ => rfl⟩
  · obtain ⟨-, ⟨⟩⟩ := Option.ite_none_right_eq_some.mp hsize
    exact ⟨fun hneg => absurd hneg (by decide), fun _ _ _ => rfl⟩

/-- Growing to one full block and reserving its size waits for no request; and a grow
whose last write fails is reported as failed with the block in place. -/
theorem layout_reserve_and_mark :
    (sizeStep 4 0 Seglin.empty (.truncate 4, Outcome.good)).bind
        (fun r => sizeStep 4 0 r.1 (.truncate (-4), Outcome.good)) = none ∧
      (sizeStep 4 0 Seglin.empty (.truncate 4, { Outcome.good with mark := false })).map
        (fun r => (r.1.blocks, r.1.totalSize, r.2)) = some ([⟨0, 0, 0, 3, 4⟩], 4, false) := by
  decide

end LStore.Linear
