import LStore.Log.Write

/-!
# Reads of a log segment

The task loop of `seglog_read_func` tiles the caller's buffer, entry after entry,
whatever the mapping. Its tasks bring the view of the segment, except when the
first logged range of an entry starts one byte after the entry: `prev_end` is
then set to `lo`, the hole of one byte is not seen, and the first byte delivered
is the first byte of the range.
-/

namespace LStore.Log

open IntervalList ByteCopy List ReadCursor

variable {s : Seglog} {lo hi b₀ : Int} {iov : List ExIovec}

/-- The copies of a cursor's queued tasks. -/
def copies (s : Seglog) (ops : List ReadOp) : List (Copy Byte) := ops.map (ReadOp.toCopy s)

/-- The bytes of the child a task reads. -/
def Source.bytes (s : Seglog) : Source → Int → Byte
  | .base => s.baseSeg.bytes
  | .data => s.dataSeg.bytes

theorem toCopy_eq (s : Seglog) (op : ReadOp) :
    op.toCopy s = ⟨op.source.bytes s, op.offset, op.bpos, op.len⟩ := by
  cases op with
  | mk source offset len bpos => cases source <;> rfl

theorem copies_push (c : ReadCursor) (source : Source) (offset len : Int) :
    copies s (c.push source offset len).ops =
      copies s c.ops ++ [⟨source.bytes s, offset, c.bpos, len⟩] := by
  simp [copies, push, toCopy_eq]

theorem copies_append (ops ops' : List ReadOp) :
    copies s (ops ++ ops') = copies s ops ++ copies s ops' := map_append

/-- Where the loop stands: at the start of the entry, or behind the last range. -/
def AtRange (lo hi : Int) (c : ReadCursor) : Prop :=
  (c.prevEnd = -1 ∧ c.pos = lo) ∨ (lo ≤ c.prevEnd ∧ c.pos = min c.prevEnd hi + 1)

/-- The tasks queued so far fill the buffer from `b₀` up to the cursor. -/
structure Filled (s : Seglog) (lo b₀ : Int) (c : ReadCursor) : Prop where
  bpos : c.bpos = b₀ + (c.pos - lo)
  tiles : Tiles b₀ (copies s c.ops) c.bpos

/-- The tasks queued so far deliver the view. -/
def Shows (s : Seglog) (lo b₀ : Int) (c : ReadCursor) : Prop :=
  ∀ buffer p, b₀ ≤ p → p < c.bpos →
    runCopies (copies s c.ops) buffer p = view s (lo + (p - b₀))

theorem Filled.push {c} (h : Filled s lo b₀ c) (source : Source) (offset len : Int)
    (hlen : 0 ≤ len) : Filled s lo b₀ (c.push source offset len) where
  bpos := by
    have := h.bpos
    simp only [ReadCursor.push]
    omega
  tiles := by
    rw [copies_push]
    exact h.tiles.append (Tiles.single (c := ⟨source.bytes s, offset, c.bpos, len⟩) hlen)

/-- Queueing a task that reads the view at the cursor keeps the view delivered. -/
theorem Shows.push {c} (hf : Filled s lo b₀ c) (h : Shows s lo b₀ c) (source : Source)
    (offset len : Int) (hlen : 0 ≤ len)
    (hbytes : ∀ k, 0 ≤ k → k < len → source.bytes s (offset + k) = view s (c.pos + k)) :
    Shows s lo b₀ (c.push source offset len) := by
  intro buffer p hp hlt
  have hb := hf.bpos
  rw [copies_push, runCopies_append]
  by_cases hold : p < c.bpos
  · rw [Tiles.outside (Tiles.single hlen) _ (by simpa using .inl hold)]
    exact h buffer p hp hold
  · simp only [ReadCursor.push] at hlt
    rw [Tiles.inside_head (Tiles.single (c := ⟨source.bytes s, offset, c.bpos, len⟩) hlen) _
      ⟨by dsimp only; omega, by dsimp only; omega⟩]
    dsimp only
    rw [hbytes (p - c.bpos) (by omega) (by omega)]
    congr 1
    omega

/-- The data offset at which the part of a range inside the entry starts. -/
def loggedOffset (lo : Int) (ir : SlogRange) : Int :=
  if ir.lo < lo then ir.dataOffset + (lo - ir.lo) else ir.dataOffset

theorem readLogged_eq (c : ReadCursor) (ir : SlogRange) :
    readLogged lo hi c ir =
      c.push .data (loggedOffset lo ir) (min ir.hi hi - c.pos + 1) := by
  unfold readLogged loggedOffset
  split_ifs with h₁ h₂ h₃
  · rw [min_eq_right (by omega)]
  · rw [min_eq_left (by omega)]
  · rw [min_eq_left (by omega)]
  · rw [min_eq_right (by omega)]

/-- The cursor after the hole check: a hole is read unless it is empty, or one
byte long at the start of the entry. -/
def afterHole (lo : Int) (c : ReadCursor) (ir : SlogRange) : ReadCursor :=
  if c.pos < ir.lo ∧ ¬(c.prevEnd = -1 ∧ ir.lo = lo + 1) then
    c.push .base c.pos (ir.lo - c.pos)
  else
    c

/-- One pass of the range loop, with its branches resolved. -/
theorem readRange_eq {c ir} (hlo : 0 ≤ lo) (hc : AtRange lo hi c) (hir : ir.lo ≤ hi)
    (hprev : c.prevEnd ≠ -1 → c.prevEnd < ir.lo) :
    readRange lo hi c ir =
      { (afterHole lo c ir).push .data (loggedOffset lo ir)
          (min ir.hi hi - (afterHole lo c ir).pos + 1) with prevEnd := ir.hi } := by
  unfold readRange
  rw [readLogged_eq]
  rcases hc with ⟨hstart, hpos⟩ | ⟨hlate, hpos⟩
  · by_cases hgap : lo < ir.lo
    · by_cases hone : ir.lo = lo + 1
      · simp [firstPrevEnd, readHole, afterHole, hstart, hone, push]
      · have hsep : ¬lo = ir.lo - 1 := by omega
        simp [firstPrevEnd, readHole, afterHole, hstart, hgap, hone, hsep, hpos, push]
    · simp [firstPrevEnd, readHole, afterHole, hstart, hgap, hpos, push]
  · have hne : c.prevEnd ≠ -1 := by omega
    have hfirst : firstPrevEnd lo c ir = c := if_neg hne
    by_cases hadj : c.prevEnd = ir.lo - 1
    · have hhole : readHole c ir = c := if_neg (not_not.mpr hadj)
      rw [hfirst, hhole, afterHole, if_neg (by omega)]
    · have hhole : readHole c ir = c.push .base c.pos (ir.lo - c.pos) := if_pos hadj
      rw [hfirst, hhole, afterHole, if_pos (by omega)]

variable {c : ReadCursor} {ir : SlogRange}

theorem afterHole_pos (lo : Int) (hc : c.pos ≤ min ir.hi hi + 1) (hir : ir.lo ≤ min ir.hi hi + 1) :
    (afterHole lo c ir).pos ≤ min ir.hi hi + 1 := by
  unfold afterHole
  split_ifs
  · simp only [push]
    omega
  · exact hc

theorem filled_afterHole (h : Filled s lo b₀ c) (ir : SlogRange) :
    Filled s lo b₀ (afterHole lo c ir) := by
  unfold afterHole
  split_ifs with hgap
  · exact h.push .base _ _ (by omega)
  · exact h

/-- Ranges that cover an offset still to be read are still to be visited. -/
def Remaining (s : Seglog) (hi : Int) (c : ReadCursor) (l : List SlogRange) : Prop :=
  ∀ q x, c.pos ≤ q → q ≤ hi → x ∈ s.mapping → x.lo ≤ q → q ≤ x.hi → x ∈ l

theorem view_logged (hs : Ordered s.mapping) (hir : ir ∈ s.mapping) {q}
    (hq : ir.lo ≤ q ∧ q ≤ ir.hi) : view s q = s.dataSeg.bytes (ir.dataOffset + (q - ir.lo)) := by
  have hlook := (lookup_eq_some_iff hs).mpr ⟨ir, hir, hq.1, hq.2, rfl⟩
  simp [view, viewOf, hlook]

theorem view_unlogged {q} (hq : ∀ x ∈ s.mapping, ¬(x.lo ≤ q ∧ q ≤ x.hi)) :
    view s q = s.baseSeg.bytes q := by
  simp [view, viewOf, lookup_eq_none_iff.mpr hq]

variable {l : List SlogRange}

/-- What the loop knows of the ranges still to be visited. -/
structure Ahead (lo hi : Int) (c : ReadCursor) (l : List SlogRange) : Prop where
  ordered : Ordered l
  meets : ∀ x ∈ l, x.lo ≤ hi ∧ lo ≤ x.hi
  behind : c.prevEnd ≠ -1 → ∀ x ∈ l, c.prevEnd < x.lo

theorem Ahead.tail {ir} (h : Ahead lo hi c (ir :: l)) : Ahead lo hi (readRange lo hi c ir) l where
  ordered := (ordered_cons.mp h.ordered).2.2
  meets := fun x hx => h.meets x (by simp [hx])
  behind := fun _ x hx => (ordered_cons.mp h.ordered).2.1 x hx

section

variable (hc : AtRange lo hi c) (hlo : 0 ≤ lo) (hhi : lo ≤ hi + 1)
include hc hlo hhi

/-- The cursor is never behind the range being read. -/
theorem atRange_pos_le (hmeet : ir.lo ≤ hi ∧ lo ≤ ir.hi) (hne : ir.lo ≤ ir.hi)
    (hprev : c.prevEnd ≠ -1 → c.prevEnd < ir.lo) : c.pos ≤ min ir.hi hi + 1 := by
  unfold AtRange at hc
  omega

/-- A pass over a range fills the buffer up to the end of the range. -/
theorem filled_readRange (h : Filled s lo b₀ c) (hmeet : ir.lo ≤ hi ∧ lo ≤ ir.hi) (hne : ir.lo ≤ ir.hi)
    (hprev : c.prevEnd ≠ -1 → c.prevEnd < ir.lo) :
    Filled s lo b₀ (readRange lo hi c ir) ∧ AtRange lo hi (readRange lo hi c ir) := by
  have hpos := afterHole_pos lo (atRange_pos_le hc hlo hhi hmeet hne hprev) (by omega)
  have hfill := (filled_afterHole h ir).push .data (loggedOffset lo ir)
    (min ir.hi hi - (afterHole lo c ir).pos + 1) (by omega)
  rw [readRange_eq hlo hc hmeet.1 hprev]
  refine ⟨⟨hfill.bpos, hfill.tiles⟩, .inr ⟨hmeet.2, ?_⟩⟩
  simp only [push]
  omega

omit hhi in
/-- When no hole of one byte is missed, the range is read from its first byte
inside the entry. -/
theorem afterHole_pos_eq (hir : ir.lo ≤ hi) (hprev : c.prevEnd ≠ -1 → c.prevEnd < ir.lo)
    (hseen : ¬(c.prevEnd = -1 ∧ ir.lo = lo + 1)) : (afterHole lo c ir).pos = max lo ir.lo := by
  have hbounds : c.pos ≤ max lo ir.lo ∧ lo ≤ c.pos ∧ (ir.lo < lo → c.pos = lo) := by
    unfold AtRange at hc
    omega
  unfold afterHole
  split_ifs with hgap
  · simp only [push]
    omega
  · omega

/-- A pass over a range delivers the view up to the end of the range. -/
theorem shows_readRange (hs : Ordered s.mapping) (h : Filled s lo b₀ c) (hsh : Shows s lo b₀ c)
    (hir : ir ∈ s.mapping) (hmeet : ir.lo ≤ hi ∧ lo ≤ ir.hi)
    (hprev : c.prevEnd ≠ -1 → c.prevEnd < ir.lo) (hseen : ¬(c.prevEnd = -1 ∧ ir.lo = lo + 1)) {l}
    (hl : ∀ x ∈ l, ir.hi < x.lo) (hrem : Remaining s hi c (ir :: l)) :
    Shows s lo b₀ (readRange lo hi c ir) ∧ Remaining s hi (readRange lo hi c ir) l := by
  have hne : ir.lo ≤ ir.hi := hs.nonempty ir hir
  have hpos := afterHole_pos_eq hc hlo hmeet.1 hprev hseen
  have hhole : Shows s lo b₀ (afterHole lo c ir) := by
    unfold afterHole
    split_ifs with hgap
    · refine hsh.push h .base _ _ (by omega) ?_
      intro k hk hlt
      refine (view_unlogged ?_).symm
      intro x hx hcov
      rcases mem_cons.mp (hrem (c.pos + k) x (by omega) (by omega) hx hcov.1 hcov.2) with
        rfl | hxl
      · omega
      · have := hl x hxl
        omega
    · exact hsh
  have hlog := hhole.push (filled_afterHole h ir) .data (loggedOffset lo ir)
    (min ir.hi hi - (afterHole lo c ir).pos + 1) (by omega) (by
      intro k hk hlt
      rw [view_logged hs hir (by omega)]
      simp only [Source.bytes, loggedOffset]
      congr 1
      split_ifs <;> omega)
  rw [readRange_eq hlo hc hmeet.1 hprev]
  refine ⟨hlog, ?_⟩
  intro q x hq hqhi hx hxlo hxhi
  simp only [push] at hq
  have hcpos : c.pos ≤ q := by
    have := atRange_pos_le hc hlo hhi hmeet hne hprev
    omega
  rcases mem_cons.mp (hrem q x hcpos hqhi hx hxlo hxhi) with rfl | hxl
  · omega
  · exact hxl

/-- The range loop fills the buffer up to its cursor. -/
theorem filled_foldl (h : Filled s lo b₀ c) (hl : Ahead lo hi c l) :
    Filled s lo b₀ (l.foldl (readRange lo hi) c) ∧ AtRange lo hi (l.foldl (readRange lo hi) c) := by
  induction l generalizing c with
  | nil => exact ⟨h, hc⟩
  | cons ir l ih =>
    obtain ⟨h', hc'⟩ := filled_readRange hc hlo hhi h (hl.meets ir (by simp))
      (ordered_cons.mp hl.ordered).1 (fun hp => hl.behind hp ir (by simp))
    exact ih hc' h' hl.tail

/-- The range loop delivers the view when its first range does not start one
byte after the entry. Later passes start behind a range and cannot miss a hole. -/
theorem shows_foldl (hs : Ordered s.mapping) (h : Filled s lo b₀ c) (hsh : Shows s lo b₀ c)
    (hl : Ahead lo hi c l) (hmem : ∀ x ∈ l, x ∈ s.mapping)
    (hseen : c.prevEnd = -1 → ∀ x ∈ l.head?, x.lo ≠ lo + 1) (hrem : Remaining s hi c l) :
    Shows s lo b₀ (l.foldl (readRange lo hi) c) ∧
      Remaining s hi (l.foldl (readRange lo hi) c) [] := by
  induction l generalizing c with
  | nil => exact ⟨hsh, hrem⟩
  | cons ir l ih =>
    obtain ⟨hne, hlater, _⟩ := ordered_cons.mp hl.ordered
    have hmeet := hl.meets ir (by simp)
    have hprev := fun hp => hl.behind hp ir (by simp)
    obtain ⟨h', hc'⟩ := filled_readRange hc hlo hhi h hmeet hne hprev
    obtain ⟨hsh', hrem'⟩ := shows_readRange hc hlo hhi hs h hsh (hmem ir (by simp)) hmeet hprev
      (fun hbad => hseen hbad.1 ir (by simp) hbad.2) hlater hrem
    refine ih hc' h' hsh' hl.tail (fun x hx => hmem x (by simp [hx])) ?_ hrem'
    intro hstart
    have : (readRange lo hi c ir).prevEnd = ir.hi := rfl
    omega

/-- The last read brings the buffer to the end of the entry. -/
theorem filled_readRest (h : Filled s lo b₀ c) :
    Tiles b₀ (copies s (readRest lo hi c).ops) (b₀ + (hi + 1 - lo)) ∧
      (readRest lo hi c).bpos = b₀ + (hi + 1 - lo) := by
  have hb := h.bpos
  unfold AtRange at hc
  unfold readRest
  split_ifs with hstart hend
  · have hpush := h.push .base lo (hi - lo + 1) (by omega)
    have heq : (c.push .base lo (hi - lo + 1)).bpos = b₀ + (hi + 1 - lo) := by
      simp only [push]
      omega
    exact ⟨heq ▸ hpush.tiles, heq⟩
  · have hpush := h.push .base c.pos (hi - (c.prevEnd + 1) + 1) (by omega)
    have heq : (c.push .base c.pos (hi - (c.prevEnd + 1) + 1)).bpos = b₀ + (hi + 1 - lo) := by
      simp only [push]
      omega
    exact ⟨heq ▸ hpush.tiles, heq⟩
  · have heq : c.bpos = b₀ + (hi + 1 - lo) := by omega
    exact ⟨heq ▸ h.tiles, heq⟩

theorem shows_readRest (h : Filled s lo b₀ c) (hsh : Shows s lo b₀ c) (hrem : Remaining s hi c []) :
    Shows s lo b₀ (readRest lo hi c) := by
  have hbase (q : Int) (hq : c.pos ≤ q) (hqhi : q ≤ hi) : view s q = s.baseSeg.bytes q := by
    refine view_unlogged ?_
    intro x hx hcov
    simpa using hrem q x hq hqhi hx hcov.1 hcov.2
  unfold AtRange at hc
  unfold readRest
  split_ifs with hstart hend
  · have hpos : c.pos = lo := by omega
    refine hsh.push h .base _ _ (by omega) ?_
    intro k hk hlt
    rw [hpos, hbase (lo + k) (by omega) (by omega)]
    rfl
  · refine hsh.push h .base _ _ (by omega) ?_
    intro k hk hlt
    have hpos : c.pos = c.prevEnd + 1 := by omega
    rw [hbase (c.pos + k) (by omega) (by omega)]
    rfl
  · exact hsh

end

variable {v : ExIovec}

/-- What a search finds first is in the mapping and meets the query. -/
theorem search_head {m : Mapping} (hl : tbxIslSearch lo hi m = ir :: l) :
    ir ∈ m ∧ ((ir.lo < lo ∧ lo ≤ ir.hi) ∨ (lo ≤ ir.lo ∧ ir.lo ≤ hi)) :=
  mem_search.mp (show ir ∈ tbxIslSearch lo hi m by simp [hl])

/-- The search of an entry starts the loop with everything ahead. -/
theorem ahead_search (lo hi : Int) (hs : Ordered s.mapping) (hhi : lo ≤ hi + 1) (bpos : Int) :
    Ahead lo hi ⟨lo, bpos, -1, []⟩ (tbxIslSearch lo hi s.mapping) where
  ordered := hs.search lo hi
  meets := by
    intro x hx
    obtain ⟨hmem, hmeet⟩ := mem_search.mp hx
    have hne : x.lo ≤ x.hi := hs.nonempty x hmem
    simp only [meets_def] at hmeet
    omega
  behind := fun h => absurd rfl h

theorem filled_start (lo bpos : Int) : Filled s lo bpos ⟨lo, bpos, -1, []⟩ :=
  ⟨by simp, Tiles.nil⟩

/-- The tasks of an entry tile its part of the buffer. -/
theorem tiles_readEntry (hs : Ordered s.mapping) (bpos : Int) (v : ExIovec) :
    Tiles bpos (copies s (readEntry s.mapping bpos v).1) (bpos + v.len) ∧
      (readEntry s.mapping bpos v).2 = bpos + v.len := by
  have hlen : bpos + ((v.offset : Int) + v.len - 1 + 1 - v.offset) = bpos + v.len := by omega
  have hstart : AtRange v.offset (v.offset + v.len - 1) ⟨v.offset, bpos, -1, []⟩ :=
    .inl ⟨rfl, rfl⟩
  obtain ⟨hfill, hat⟩ := filled_foldl hstart (by omega) (by omega) (filled_start v.offset bpos)
    (ahead_search _ _ hs (by omega) bpos)
  obtain ⟨htiles, hend⟩ := filled_readRest hat (by omega) (by omega) hfill
  rw [hlen] at htiles hend
  exact ⟨htiles, hend⟩

theorem tiles_readTasks (hs : Ordered s.mapping) (bpos : Int) (iov : List ExIovec) :
    Tiles bpos (copies s (readTasks s.mapping bpos iov)) (bpos + nbytes iov) := by
  induction iov generalizing bpos with
  | nil => simpa [readTasks, copies] using Tiles.nil
  | cons v iov ih =>
    obtain ⟨htiles, hend⟩ := tiles_readEntry hs bpos v
    have hrest := ih (bpos + v.len)
    rw [readTasks, hend, copies_append, nbytes_cons]
    push_cast
    rw [← Int.add_assoc]
    exact htiles.append hrest

/-- The hole the read loop does not see: the entry starts one byte before the
logged range it reaches. -/
def OneByteGap (logged : Int → Prop) (v : ExIovec) : Prop :=
  2 ≤ v.len ∧ ¬logged v.offset ∧ logged (v.offset + 1)

/-- The first range found starts one byte after the entry only at such a hole. -/
theorem head_search_eq (hs : Ordered s.mapping) {x}
    (hx : x ∈ (tbxIslSearch lo hi s.mapping).head?) (hone : x.lo = lo + 1) :
    lo + 1 ≤ hi ∧ lookup s.mapping lo = none ∧ lookup s.mapping (lo + 1) ≠ none := by
  have hmem : x ∈ tbxIslSearch lo hi s.mapping := mem_of_mem_head? hx
  obtain ⟨hxm, hmeet⟩ := mem_search.mp hmem
  have hne : x.lo ≤ x.hi := hs.nonempty x hxm
  have hhi : lo + 1 ≤ hi := by
    simp only [meets_def] at hmeet
    omega
  refine ⟨hhi, lookup_eq_none_iff.mpr ?_, ?_⟩
  · -- a range covering `lo` would be found first
    intro y hy hcov
    have hys : y ∈ tbxIslSearch lo hi s.mapping :=
      mem_search.mpr ⟨hy, meets_def.mpr (by omega)⟩
    cases hl : tbxIslSearch lo hi s.mapping with
    | nil => simp [hl] at hx
    | cons z rest =>
      have hzx : z = x := by simpa [hl] using hx
      have hord := hs.search lo hi
      rw [tbxIslSearch] at hl hys
      rw [hl] at hord hys
      rcases mem_cons.mp hys with rfl | hyr
      · subst hzx
        omega
      · have := (ordered_cons.mp hord).2.1 y hyr
        subst hzx
        simp only [spanned_lo, spanned_hi] at this
        omega
  · intro hnone
    exact lookup_eq_none_iff.mp hnone x hxm (by omega)

/-- An entry without the hole is read as the view shows it. -/
theorem readEntry_shows (hs : Ordered s.mapping) (bpos : Int)
    (hv : ¬OneByteGap (fun o => lookup s.mapping o ≠ none) v) (buffer : Int → Byte) {k : Int}
    (hk : 0 ≤ k) (hlt : k < v.len) :
    runCopies (copies s (readEntry s.mapping bpos v).1) buffer (bpos + k) =
      view s (v.offset + k) := by
  have hstart : AtRange v.offset (v.offset + v.len - 1) ⟨v.offset, bpos, -1, []⟩ :=
    .inl ⟨rfl, rfl⟩
  have hahead := ahead_search v.offset (v.offset + v.len - 1) hs (by omega) bpos
  obtain ⟨hfill, hat⟩ := filled_foldl hstart (by omega) (by omega) (filled_start v.offset bpos)
    hahead
  obtain ⟨hshow, hrem⟩ := shows_foldl hstart (by omega) (by omega) hs
    (filled_start v.offset bpos) (by intro _ p hp hp'; dsimp only at hp'; omega) hahead
    (fun x hx => (mem_search.mp hx).1)
    (by
      intro _ x hx hone
      obtain ⟨hhi, hnone, hsome⟩ := head_search_eq hs hx hone
      exact hv ⟨by omega, not_not.mpr hnone, hsome⟩)
    (by
      intro q x hq hqhi hx hxlo hxhi
      dsimp only at hq
      exact mem_search.mpr ⟨hx, meets_def.mpr (by omega)⟩)
  have hrest := shows_readRest hat (by omega) (by omega) hfill hshow hrem
  have hend := (filled_readRest hat (by omega) (by omega) hfill).2
  have := hrest buffer (bpos + k) (by omega) (by omega)
  rw [show bpos + k - bpos = k by omega] at this
  exact this

theorem readRange_appends (lo hi : Int) (c : ReadCursor) (ir : SlogRange) :
    ∃ ops, (readRange lo hi c ir).ops = c.ops ++ ops := by
  simp only [readRange, readLogged_eq, readHole, firstPrevEnd, push]
  split_ifs <;> exact ⟨_, by first | rfl | exact append_assoc _ _ _⟩

theorem foldl_readRange_appends (lo hi : Int) (l : List SlogRange) (c : ReadCursor) :
    ∃ ops, (l.foldl (readRange lo hi) c).ops = c.ops ++ ops := by
  induction l generalizing c with
  | nil => exact ⟨[], by simp⟩
  | cons ir l ih =>
    obtain ⟨ops, hops⟩ := readRange_appends lo hi c ir
    obtain ⟨ops', hops'⟩ := ih (readRange lo hi c ir)
    exact ⟨ops ++ ops', by rw [foldl_cons, hops', hops, append_assoc]⟩

theorem readRest_appends (lo hi : Int) (c : ReadCursor) :
    ∃ ops, (readRest lo hi c).ops = c.ops ++ ops := by
  simp only [readRest, push]
  split_ifs
  · exact ⟨_, rfl⟩
  · exact ⟨_, rfl⟩
  · exact ⟨[], by simp⟩

/-- At the hole the search starts with the range behind it. -/
theorem search_gap (hs : Ordered s.mapping) (hhi : lo + 1 ≤ hi)
    (hnone : lookup s.mapping lo = none) (hsome : lookup s.mapping (lo + 1) ≠ none) :
    ∃ x rest, tbxIslSearch lo hi s.mapping = x :: rest ∧ x ∈ s.mapping ∧ x.lo = lo + 1 := by
  have hfree := lookup_eq_none_iff.mp hnone
  have hcov : ∃ x ∈ s.mapping, x.lo ≤ lo + 1 ∧ lo + 1 ≤ x.hi := by
    by_contra hno
    push Not at hno
    exact hsome (lookup_eq_none_iff.mpr fun x hx hc => absurd hc.2 (by have := hno x hx hc.1; omega))
  obtain ⟨x, hx, hxlo, hxhi⟩ := hcov
  have hlo : x.lo = lo + 1 := by
    have := hfree x hx
    omega
  have hmem : x ∈ tbxIslSearch lo hi s.mapping :=
    mem_search.mpr ⟨hx, meets_def.mpr (by omega)⟩
  cases hl : tbxIslSearch lo hi s.mapping with
  | nil => simp [hl] at hmem
  | cons z rest =>
    obtain ⟨hz, hmeet⟩ := search_head hl
    have hzx : z = x := by
      by_contra hne
      have hord := hs.search lo hi
      rw [tbxIslSearch] at hl hmem
      rw [hl] at hord hmem
      have hxr : x ∈ rest := (mem_cons.mp hmem).resolve_left fun h => hne h.symm
      have hbefore : z.hi < x.lo := (ordered_cons.mp hord).2.1 x hxr
      have hzne : z.lo ≤ z.hi := hs.nonempty z hz
      exact hfree z hz (by omega)
    exact ⟨x, rest, by rw [hzx], hx, hlo⟩

/-- At the hole the first byte delivered is the byte behind it. -/
theorem readEntry_gap (hs : Ordered s.mapping) (bpos : Int)
    (hv : OneByteGap (fun o => lookup s.mapping o ≠ none) v) (buffer : Int → Byte) :
    runCopies (copies s (readEntry s.mapping bpos v).1) buffer bpos = view s (v.offset + 1) := by
  obtain ⟨hlen, hnone, hsome⟩ := hv
  have hhi : (v.offset : Int) + 1 ≤ v.offset + v.len - 1 := by omega
  obtain ⟨x, rest, hl, hx, hlo⟩ := search_gap hs hhi (not_not.mp hnone) hsome
  have hne : x.lo ≤ x.hi := hs.nonempty x hx
  have hfirst : (readRange v.offset (v.offset + v.len - 1) ⟨v.offset, bpos, -1, []⟩ x).ops =
      [⟨.data, x.dataOffset, min x.hi (v.offset + v.len - 1) - v.offset + 1, bpos⟩] := by
    rw [readRange_eq (show (0 : Int) ≤ v.offset by omega) (.inl ⟨rfl, rfl⟩) (by omega)
      (fun h => absurd rfl h)]
    have hoff : loggedOffset v.offset x = x.dataOffset := if_neg (by omega)
    simp [afterHole, hoff, hlo, push]
  obtain ⟨ops, hops⟩ := foldl_readRange_appends v.offset (v.offset + v.len - 1) rest
    (readRange v.offset (v.offset + v.len - 1) ⟨v.offset, bpos, -1, []⟩ x)
  obtain ⟨ops', hops'⟩ := readRest_appends v.offset (v.offset + v.len - 1)
    (rest.foldl (readRange v.offset (v.offset + v.len - 1))
      (readRange v.offset (v.offset + v.len - 1) ⟨v.offset, bpos, -1, []⟩ x))
  have hentry : (readEntry s.mapping bpos v).1 =
      ⟨.data, x.dataOffset, min x.hi (v.offset + v.len - 1) - v.offset + 1, bpos⟩ ::
        (ops ++ ops') := by
    simp only [readEntry, hl, foldl_cons]
    rw [hops', hops, hfirst]
    rfl
  have htiles := (tiles_readEntry hs bpos v).1
  rw [hentry, copies, map_cons, toCopy_eq] at htiles ⊢
  rw [htiles.inside_head buffer ⟨by omega, by dsimp only; omega⟩, view_logged hs hx (by omega), hlo]
  simp only [Source.bytes]
  congr 1
  omega

/-- The buffer holds, entry after entry, the requested bytes of a flat file. -/
def ReadsBack (file buffer : Int → Byte) : Int → List ExIovec → Prop
  | _, [] => True
  | bpos, v :: rest =>
    (∀ k : Int, 0 ≤ k → k < v.len → buffer (bpos + k) = file (v.offset + k)) ∧
      ReadsBack file buffer (bpos + v.len) rest

/-- A request whose entries have no hole of one byte in front reads the view. -/
theorem readsBack_readTasks (hs : Ordered s.mapping)
    (hv : ∀ v ∈ iov, ¬OneByteGap (fun o => lookup s.mapping o ≠ none) v) (bpos : Int)
    (buffer : Int → Byte) :
    ReadsBack (view s) (runCopies (copies s (readTasks s.mapping bpos iov)) buffer) bpos iov := by
  induction iov generalizing bpos buffer with
  | nil => trivial
  | cons v iov ih =>
    have hend := (tiles_readEntry hs bpos v).2
    rw [readTasks, hend, copies_append, runCopies_append]
    refine ⟨?_, ih (fun w hw => hv w (by simp [hw])) _ _⟩
    intro k hk hlt
    rw [(tiles_readTasks hs (bpos + v.len) iov).outside _ (by omega)]
    exact readEntry_shows hs bpos (hv v (by simp)) buffer hk hlt

/-- A request that reads a file back has, at an entry with such a hole, the same
byte on both sides of the hole's edge. -/
theorem readsBack_gap (hs : Ordered s.mapping) {file} (hv : v ∈ iov)
    (hgap : OneByteGap (fun o => lookup s.mapping o ≠ none) v) (bpos : Int) (buffer : Int → Byte)
    (h : ReadsBack file (runCopies (copies s (readTasks s.mapping bpos iov)) buffer) bpos iov) :
    file v.offset = view s (v.offset + 1) := by
  induction iov generalizing bpos buffer with
  | nil => simp at hv
  | cons w iov ih =>
    have hend := (tiles_readEntry hs bpos w).2
    rw [readTasks, hend, copies_append, runCopies_append] at h
    obtain ⟨hhead, htail⟩ := h
    rcases mem_cons.mp hv with rfl | hv
    · have hlen := hgap.1
      have hfirst := hhead 0 (by omega) (by omega)
      rw [(tiles_readTasks hs (bpos + v.len) iov).outside _ (by omega)] at hfirst
      simp only [Int.add_zero] at hfirst
      rw [← hfirst]
      exact readEntry_gap hs bpos hgap buffer
    · exact ih hv _ _ htail

/-- A read may run its queued tasks in any order. -/
def ReadOutcome (s : Seglog) (iov : List ExIovec) (boff : Int) (buffer buffer' : Int → Byte) :
    Prop :=
  ∃ tasks, (readTasks s.mapping boff iov).Perm tasks ∧ buffer' = runCopies (copies s tasks) buffer

/-- The order of the tasks does not matter. -/
theorem readOutcome_iff (hs : Ordered s.mapping) {boff buffer buffer'} :
    ReadOutcome s iov boff buffer buffer' ↔ buffer' = seglogReadFunc s iov boff buffer := by
  constructor
  · rintro ⟨tasks, hperm, rfl⟩
    exact (tiles_readTasks hs boff iov).runCopies_perm (hperm.map _) buffer
  · rintro rfl
    exact ⟨_, List.Perm.refl _, rfl⟩

theorem overlay_const (b : Byte) (bpos : Int) (iov : List ExIovec) (file : Int → Byte) (o : Int) :
    overlay (fun _ => b) bpos iov file o = if Covers iov o then b else file o := by
  induction iov generalizing bpos file with
  | nil => simp [overlay, Covers]
  | cons v iov ih =>
    rw [overlay, ih]
    simp only [covers_cons, copyBytes]
    split_ifs <;> tauto

theorem latest_const (b : Byte) (g : List WriteReq) (file : Int → Byte) (o : Int) :
    latest file (g.map fun w => (w, fun _ => b)) o = if Logged g o then b else file o := by
  induction g generalizing file with
  | nil => simp [latest, Logged]
  | cons w g ih =>
    have hcons : latest file ((w :: g).map fun w => (w, fun _ => b)) =
        latest (overlay (fun _ => b) w.boff w.iov file) (g.map fun w => (w, fun _ => b)) := rfl
    rw [hcons, ih, overlay_const]
    simp only [logged_cons]
    split_ifs <;> tauto

/-- Writes of any contents followed by a read give the latest bytes, in every
order of the read tasks, exactly when no entry of the read starts one byte
before a logged byte at an offset that was never written. -/
theorem read_after_writes_iff (g : List WriteReq) (iov : List ExIovec) (boff : Int) :
    (∀ (ws : List (WriteReq × (Int → Byte))) (data base : Child), ws.map Prod.fst = g →
      ∃ s, runWrites (slogMake data base) ws = some s ∧
        ∀ buffer buffer', ReadOutcome s iov boff buffer buffer' →
          ReadsBack (latest base.bytes ws) buffer' boff iov) ↔
      ∀ v ∈ iov, ¬OneByteGap (Logged g) v := by
  constructor
  · intro h v hv hgap
    have hg : (g.map fun w => (w, fun _ : Int => (0 : Byte))).map Prod.fst = g := by
      rw [map_map]
      exact map_id g
    obtain ⟨s, hrun, hread⟩ := h (g.map fun w => (w, fun _ => 0)) Child.empty
      { bytes := fun _ => 1, size := 0 } hg
    obtain ⟨s', hrun', hinv, hlogged, hview⟩ := runWrites_slogMake Child.empty
      { bytes := fun _ => 1, size := 0 } (g.map fun w => (w, fun _ => 0))
    obtain rfl : s = s' := Option.some.inj (hrun.symm.trans hrun')
    rw [hg] at hlogged
    have hback := hread (fun _ => 0) _ ((readOutcome_iff hinv.ordered).mpr rfl)
    have heq := readsBack_gap hinv.ordered hv (hlogged ▸ hgap) boff _ hback
    rw [hview, latest_const, latest_const, if_neg hgap.2.1, if_pos hgap.2.2] at heq
    exact absurd heq (show ¬(1 : Byte) = 0 by decide)
  · intro hgap ws data base hws
    obtain ⟨s, hrun, hinv, hlogged, hview⟩ := runWrites_slogMake data base ws
    refine ⟨s, hrun, ?_⟩
    intro buffer buffer' hout
    rw [(readOutcome_iff hinv.ordered).mp hout, ← hview]
    refine readsBack_readTasks hinv.ordered ?_ boff buffer
    rw [hlogged, hws]
    exact hgap

/-- One byte written at offset 1, then a read of the first two bytes: the base
byte at offset 0 is lost and the written byte is delivered in its place. -/
theorem read_after_writes_gap :
    let w : WriteReq × (Int → Byte) := (⟨[⟨1, 1⟩], 0, by simp⟩, fun _ => 5)
    (runWrites (slogMake Child.empty { bytes := fun _ => 7, size := 2 }) [w]).map (fun s =>
        (seglogReadFunc s [⟨0, 2⟩] 0 (fun _ => 9) 0, seglogReadFunc s [⟨0, 2⟩] 0 (fun _ => 9) 1)) =
      some (5, 0) ∧
    (latest (fun _ => 7) [w] 0, latest (fun _ => 7) [w] 1) = (7, 5) := by
  decide

end LStore.Log
