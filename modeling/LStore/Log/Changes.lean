import LStore.Log.Truncate

/-!
# Accumulating the changes of stacked logs

`slog_changes` collects, over a range of a log whose base may be a log again, one
record for each logged part. It descends into the base for the gaps of the upper
log. Three things go wrong on the way. The count of the bytes so far is added once
more at each descent. A gap behind a logged range is entered at the last offset of
that range. And a gap of one byte at the front of the request is not noticed.

## Implementation notes

A stack of logs is the list of its levels, the top first; what lies under the last
one is not a log. The stack of records is a list with its bottom at the end.
-/

namespace LStore.Log

open IntervalList List

variable {l : List SlogRange} {ir : SlogRange} {cs : List SlogChange} {levels : List LogLevel}

/-- `slog_changes_t`. -/
structure SlogChange where
  seg : Nat
  lo : Int
  hi : Int
  len : Int
  segOffset : Int
deriving DecidableEq, Repr

/-- A log of the stack: which segment it is and its mapping. -/
structure LogLevel where
  seg : Nat
  mapping : Mapping

/-- The variables of the loop of `slog_changes`. -/
structure ChangeCursor where
  stack : List SlogChange
  nbytes : Int
  prevEnd : Int

/-- A call of `slog_changes` on one segment: from the bounds and the stack to the
stack and the byte count. -/
def ChangeCall := Int → Int → List SlogChange → List SlogChange × Int

/-- `nbytes += nbytes + slog_changes(base, lo, hi, stack)`, when the base is a log. -/
def ChangeCursor.descend (base : Option ChangeCall) (lo hi : Int) (c : ChangeCursor) :
    ChangeCursor :=
  match base with
  | none => c
  | some call =>
    { c with
      stack := (call lo hi c.stack).1
      nbytes := c.nbytes + (c.nbytes + (call lo hi c.stack).2) }

/-- The record of the part of `ir` inside the request. -/
def slogChange (seg : Nat) (lo hi : Int) (ir : SlogRange) : SlogChange :=
  let record (clo chi segOffset : Int) : SlogChange := ⟨seg, clo, chi, chi - clo + 1, segOffset⟩
  if ir.lo < lo then
    record lo (if hi < ir.hi then hi else ir.hi) (ir.dataOffset + lo - ir.lo)
  else if ir.hi ≤ hi then
    record ir.lo ir.hi ir.dataOffset
  else
    record ir.lo hi ir.dataOffset

/-- Append the record of a range. -/
def ChangeCursor.log (seg : Nat) (lo hi : Int) (c : ChangeCursor) (ir : SlogRange) :
    ChangeCursor where
  stack := c.stack ++ [slogChange seg lo hi ir]
  nbytes := c.nbytes + (slogChange seg lo hi ir).len
  prevEnd := ir.hi

/-- `prev_end` at the test for a gap. -/
def gapStart (lo : Int) (c : ChangeCursor) (ir : SlogRange) : Int :=
  if c.prevEnd = -1 then
    if lo < ir.lo then lo else ir.lo - 1
  else
    c.prevEnd

/-- One pass of the loop. -/
def changeRange (base : Option ChangeCall) (seg : Nat) (lo hi : Int) (c : ChangeCursor)
    (ir : SlogRange) : ChangeCursor :=
  if gapStart lo c ir ≠ ir.lo - 1 then
    (c.descend base (gapStart lo c ir) (ir.lo - 1)).log seg lo hi ir
  else
    c.log seg lo hi ir

/-- What follows the loop. -/
def changeRest (base : Option ChangeCall) (lo hi : Int) (c : ChangeCursor) : ChangeCursor :=
  if c.prevEnd = -1 then
    c.descend base lo hi
  else if c.prevEnd < hi then
    c.descend base c.prevEnd hi
  else
    c

/-- The body of `slog_changes` on one level. -/
def levelCursor (base : Option ChangeCall) (top : LogLevel) (lo hi : Int)
    (stack : List SlogChange) : ChangeCursor :=
  changeRest base lo hi
    ((tbxIslSearch lo hi top.mapping).foldl (changeRange base top.seg lo hi) ⟨stack, 0, -1⟩)

/-- `slog_changes`. It is called on logs, so on lists with a level. -/
def slogChanges : List LogLevel → ChangeCall
  | [] => fun _ _ stack => (stack, 0)
  | top :: below => fun lo hi stack =>
    let base := if below.isEmpty then none else some (slogChanges below)
    ((levelCursor base top lo hi stack).stack, (levelCursor base top lo hi stack).nbytes)

/-- The topmost level that logs an offset, and the data offset there. -/
def topmost (levels : List LogLevel) (o : Int) : Option (Nat × Int) :=
  levels.findSome? fun l => (lookup l.mapping o).map fun d => (l.seg, d)

/-- The bytes of a list of records. -/
def changedBytes (cs : List SlogChange) : Int := (cs.map SlogChange.len).sum

/-- A record of a nonempty part of `[lo, hi]`. -/
structure SlogChange.Inside (lo hi : Int) (c : SlogChange) : Prop where
  lo : lo ≤ c.lo
  nonempty : c.lo ≤ c.hi
  hi : c.hi ≤ hi
  len : c.len = c.hi - c.lo + 1

theorem SlogChange.Inside.mono {lo hi a b} {c : SlogChange} (h : c.Inside a b) (ha : lo ≤ a)
    (hb : b ≤ hi) : c.Inside lo hi :=
  ⟨le_trans ha h.lo, h.nonempty, le_trans h.hi hb, h.len⟩

/-- The records and the count that a call over `[lo, hi]` should add. -/
structure Accumulated (levels : List LogLevel) (lo hi : Int) (cs : List SlogChange)
    (nbytes : Int) : Prop where
  disjoint : cs.Pairwise fun a b => a.hi < b.lo ∨ b.hi < a.lo
  inside : ∀ c ∈ cs, c.Inside lo hi
  covers : ∀ o, lo ≤ o → o ≤ hi →
    ((∃ c ∈ cs, c.lo ≤ o ∧ o ≤ c.hi) ↔ (topmost levels o).isSome)
  source : ∀ c ∈ cs, ∀ o, c.lo ≤ o → o ≤ c.hi →
    topmost levels o = some (c.seg, c.segOffset + (o - c.lo))
  count : nbytes = changedBytes cs

/-- The stacks on which a call works. Each level over a log logs nothing up to some
place `cut` of the request and everything from there on, so that no gap follows a
logged range; and a gap of one byte before a logged range holds nothing. -/
def Stepped : List LogLevel → Int → Int → Prop
  | [], _, _ => True
  | [_], _, _ => True
  | top :: below, lo, hi =>
    ∃ cut, lo ≤ cut ∧ cut ≤ hi + 1 ∧
      (∀ o, lo ≤ o → o < cut → lookup top.mapping o = none) ∧
      (∀ o, cut ≤ o → o ≤ hi → (lookup top.mapping o).isSome) ∧
      (cut = lo ∨
        (cut = lo + 1 ∧ cut ≤ hi ∧ topmost below lo = none) ∨
        ((lo + 1 < cut ∨ cut = hi + 1) ∧ Stepped below lo (cut - 1)))

variable {base : Option ChangeCall} {call : ChangeCall} {seg : Nat} {lo hi : Int} {c : ChangeCursor}

/-- What every call does, rightly counted or not: it appends records of parts of the
request and returns at least their bytes. -/
structure Appending (call : ChangeCall) : Prop where
  appends : ∀ lo hi stack, call lo hi stack = (stack ++ (call lo hi []).1, (call lo hi []).2)
  inside : ∀ lo hi, lo ≤ hi → ∀ c ∈ (call lo hi []).1, c.Inside lo hi
  counted : ∀ lo hi, lo ≤ hi → changedBytes (call lo hi []).1 ≤ (call lo hi []).2

theorem ordered_ranges {r : SlogRange} {m : Mapping} :
    Ordered (r :: m) ↔ r.lo ≤ r.hi ∧ (∀ b ∈ m, r.hi < b.lo) ∧ Ordered m := ordered_cons

@[simp] theorem changedBytes_nil : changedBytes [] = 0 := rfl

@[simp] theorem changedBytes_append (cs cs' : List SlogChange) :
    changedBytes (cs ++ cs') = changedBytes cs + changedBytes cs' := by
  simp [changedBytes]

@[simp] theorem changedBytes_cons (c : SlogChange) (cs : List SlogChange) :
    changedBytes (c :: cs) = c.len + changedBytes cs := by
  simp [changedBytes]

theorem changedBytes_nonneg (h : ∀ c ∈ cs, c.Inside lo hi) : 0 ≤ changedBytes cs := by
  induction cs with
  | nil => simp
  | cons c cs ih =>
    obtain ⟨hc, h'⟩ := forall_mem_cons.mp h
    have := hc.nonempty
    have := hc.len
    have := ih h'
    rw [changedBytes_cons]
    omega

theorem slogChange_eq (seg : Nat) (lo hi : Int) (ir : SlogRange) :
    slogChange seg lo hi ir =
      ⟨seg, max lo ir.lo, min hi ir.hi, min hi ir.hi - max lo ir.lo + 1,
        ir.dataOffset + (max lo ir.lo - ir.lo)⟩ := by
  unfold slogChange
  split_ifs <;> simp only [SlogChange.mk.injEq, true_and] <;> omega

/-- The record of a range that meets the request lies inside it. -/
theorem slogChange_inside (hlo : lo ≤ hi) (hne : ir.lo ≤ ir.hi) (hmeet : Meets lo hi ir) :
    (slogChange seg lo hi ir).Inside lo hi := by
  have hover : ir.lo ≤ hi ∧ lo ≤ ir.hi := (meets_iff hne hlo).mp hmeet
  rw [slogChange_eq]
  exact ⟨by dsimp only; omega, by dsimp only; omega, by dsimp only; omega, rfl⟩

/-- A descent into `base` appends, if there is one. -/
def Appends (base : Option ChangeCall) : Prop := ∀ call, base = some call → Appending call

/-- A cursor between two steps: its records lie inside the request, and no byte of
them is uncounted. -/
structure Counting (lo hi : Int) (c : ChangeCursor) : Prop where
  inside : ∀ r ∈ c.stack, r.Inside lo hi
  counted : changedBytes c.stack ≤ c.nbytes

/-- What the count of a cursor has too much. -/
def ChangeCursor.excess (c : ChangeCursor) : Int := c.nbytes - changedBytes c.stack

theorem Counting.nbytes_nonneg (hc : Counting lo hi c) : 0 ≤ c.nbytes :=
  le_trans (changedBytes_nonneg hc.inside) hc.counted

/-- A descent adds records inside its gap, and counts what was counted once more. -/
theorem descend_spec (hbase : Appends base) (hc : Counting lo hi c) {a b : Int} (ha : lo ≤ a)
    (hab : a ≤ b) (hb : b ≤ hi) :
    Counting lo hi (c.descend base a b) ∧ c.nbytes ≤ (c.descend base a b).nbytes ∧
      c.excess ≤ (c.descend base a b).excess ∧
      (base.isSome → 0 < c.nbytes → c.excess < (c.descend base a b).excess) := by
  cases base with
  | none =>
    refine ⟨hc, le_rfl, le_rfl, ?_⟩
    intro h
    simp at h
  | some call =>
    have hcall := hbase call rfl
    have hin := hcall.inside a b hab
    have hcount := hcall.counted a b hab
    have hnonneg := changedBytes_nonneg hin
    have hprev := hc.nbytes_nonneg
    have hcounted := hc.counted
    have hd : c.descend (some call) a b =
        ⟨c.stack ++ (call a b []).1, c.nbytes + (c.nbytes + (call a b []).2), c.prevEnd⟩ := by
      rw [ChangeCursor.descend, hcall.appends a b c.stack]
    rw [hd]
    simp only [ChangeCursor.excess, changedBytes_append]
    refine ⟨⟨?_, ?_⟩, by omega, by omega, fun _ _ => by omega⟩
    · exact forall_mem_append.mpr ⟨hc.inside, fun r hr => (hin r hr).mono ha hb⟩
    · dsimp only
      rw [changedBytes_append]
      omega

/-- Logging a range counts it and keeps the excess. -/
theorem log_spec (seg : Nat) (hlo : lo ≤ hi) (hc : Counting lo hi c) (hne : ir.lo ≤ ir.hi)
    (hmeet : Meets lo hi ir) :
    Counting lo hi (c.log seg lo hi ir) ∧ c.nbytes < (c.log seg lo hi ir).nbytes ∧
      (c.log seg lo hi ir).excess = c.excess := by
  have hin : (slogChange seg lo hi ir).Inside lo hi := slogChange_inside hlo hne hmeet
  have := hin.nonempty
  have := hin.len
  have := hc.counted
  simp only [ChangeCursor.log, ChangeCursor.excess]
  have hsum : changedBytes (c.stack ++ [slogChange seg lo hi ir]) =
      changedBytes c.stack + (slogChange seg lo hi ir).len := by simp
  refine ⟨⟨?_, ?_⟩, by omega, by omega⟩
  · exact forall_mem_append.mpr ⟨hc.inside, forall_mem_singleton.mpr hin⟩
  · simp
    omega

/-- The ranges follow each other without a gap from `p` to the end of the request. -/
def Gapless (hi : Int) : Int → List SlogRange → Prop
  | p, [] => hi ≤ p
  | p, ir :: l => ir.lo = p + 1 ∧ Gapless hi ir.hi l

/-- Behind the first range: a gap leaves an excess, and without one the records are
those of the ranges. The induction is on the ranges still to come, with `prev_end` at
the last offset of the previous one. -/
theorem rest_spec (hbase : Appends base) (hlo : lo ≤ hi) (hord : Ordered l)
    (hmeet : ∀ x ∈ l, Meets lo hi x) (hc : Counting lo hi c) (hpos : 0 < c.nbytes)
    (hprev : lo ≤ c.prevEnd) (h0 : 0 ≤ c.prevEnd) (hbehind : ∀ x ∈ l, c.prevEnd < x.lo)
    {c' : ChangeCursor} (hc' : c' = changeRest base lo hi (l.foldl (changeRange base seg lo hi) c))
    :
    Counting lo hi c' ∧ c.excess ≤ c'.excess ∧
      (base.isSome → ¬Gapless hi c.prevEnd l → c.excess < c'.excess) ∧
      (base = none ∨ Gapless hi c.prevEnd l →
        c'.stack = c.stack ++ l.map (slogChange seg lo hi) ∧
        c'.nbytes = c.nbytes + changedBytes (l.map (slogChange seg lo hi))) := by
  have hstart : ¬c.prevEnd = -1 := by omega
  induction l generalizing c with
  | nil =>
    rw [foldl_nil, changeRest, if_neg hstart] at hc'
    split_ifs at hc' with hend
    · obtain ⟨hd, _, hle, hlt⟩ := descend_spec hbase hc hprev (le_of_lt hend) le_rfl
      subst hc'
      refine ⟨hd, hle, fun hsome _ => hlt hsome hpos, ?_⟩
      rintro (rfl | hgap)
      · simp [ChangeCursor.descend]
      · exact absurd hend (not_lt.mpr hgap)
    · subst hc'
      exact ⟨hc, le_rfl, fun _ hgap => absurd (not_lt.mp hend) hgap, fun _ => by simp⟩
  | cons ir l ih =>
    obtain ⟨hne, hafter, hord'⟩ := ordered_ranges.mp hord
    have hir := hmeet ir (by simp)
    have hover : ir.lo ≤ hi ∧ lo ≤ ir.hi := (meets_iff hne hlo).mp hir
    have hlt := hbehind ir (by simp)
    have hnext (d : ChangeCursor) (hd : Counting lo hi d) (hdn : c.nbytes ≤ d.nbytes)
        (hrun : c' = changeRest base lo hi
          (l.foldl (changeRange base seg lo hi) (d.log seg lo hi ir))) :=
      ih hord' (fun x hx => hmeet x (by simp [hx])) (log_spec seg hlo hd hne hir).1
        (by have := (log_spec seg hlo hd hne hir).2.1; omega)
        (show lo ≤ ir.hi by omega) (show 0 ≤ ir.hi by omega) hafter hrun
        (show ¬ir.hi = -1 by omega)
    rw [foldl_cons, changeRange, gapStart, if_neg hstart] at hc'
    split_ifs at hc' with hgap
    · -- a gap behind the previous range
      obtain ⟨hd, hdn, hle, hlt'⟩ := descend_spec hbase hc hprev (show c.prevEnd ≤ ir.lo - 1 by omega)
        (by omega)
      have hexcess := (log_spec seg hlo hd hne hir).2.2
      obtain ⟨hcount, hmono, _, hrecords⟩ := hnext _ hd hdn hc'
      refine ⟨hcount, by omega, fun hsome _ => ?_, ?_⟩
      · have := hlt' hsome hpos
        omega
      · rintro (rfl | hgapless)
        · obtain ⟨hstack, hn⟩ := hrecords (.inl rfl)
          refine ⟨?_, ?_⟩
          · simpa [ChangeCursor.descend, ChangeCursor.log] using hstack
          · simp only [ChangeCursor.descend, ChangeCursor.log] at hn
            rw [map_cons, changedBytes_cons, hn]
            omega
        · exact absurd hgapless.1 (by omega)
    · have hexcess := (log_spec seg hlo hc hne hir).2.2
      obtain ⟨hcount, hmono, hstrict, hrecords⟩ := hnext c hc le_rfl hc'
      refine ⟨hcount, by omega, fun hsome hgapless => ?_, fun h => ?_⟩
      · have := hstrict hsome fun h => hgapless ⟨by omega, h⟩
        omega
      · obtain ⟨hstack, hn⟩ := hrecords (h.imp_right And.right)
        refine ⟨?_, ?_⟩
        · simpa [ChangeCursor.log] using hstack
        · simp only [ChangeCursor.log] at hn
          rw [map_cons, changedBytes_cons, hn]
          omega

/-- The records and the count of the gap before the first range. -/
def frontChanges (base : Option ChangeCall) (lo cut : Int) : List SlogChange × Int :=
  match base with
  | none => ([], 0)
  | some call => if lo + 1 < cut then call lo (cut - 1) [] else ([], 0)

/-- The cursor before the first range is logged. -/
def frontCursor (base : Option ChangeCall) (lo cut : Int) : ChangeCursor :=
  ⟨(frontChanges base lo cut).1, (frontChanges base lo cut).2, -1⟩

theorem changeRange_first (ir : SlogRange) :
    changeRange base seg lo hi ⟨[], 0, -1⟩ ir = (frontCursor base lo ir.lo).log seg lo hi ir := by
  have hfirst : gapStart lo ⟨[], 0, -1⟩ ir = if lo < ir.lo then lo else ir.lo - 1 := if_pos rfl
  have hgap : gapStart lo ⟨[], 0, -1⟩ ir ≠ ir.lo - 1 ↔ lo + 1 < ir.lo := by
    rw [hfirst]
    split_ifs <;> omega
  unfold changeRange frontCursor frontChanges
  by_cases hcut : lo + 1 < ir.lo
  · rw [if_pos (hgap.mpr hcut), hfirst, if_pos (show lo < ir.lo by omega)]
    cases base with
    | none => rfl
    | some call => simp [ChangeCursor.descend, hcut]
  · rw [if_neg (mt hgap.mp hcut)]
    cases base with
    | none => rfl
    | some call => simp [hcut]

theorem frontChanges_inside (hbase : Appends base) (a cut : Int) :
    (∀ c ∈ (frontChanges base a cut).1, c.Inside a (cut - 1)) ∧
      changedBytes (frontChanges base a cut).1 ≤ (frontChanges base a cut).2 := by
  unfold frontChanges
  cases base with
  | none => simp
  | some call =>
    split_ifs with hcut
    · exact ⟨(hbase call rfl).inside a (cut - 1) (by omega),
        (hbase call rfl).counted a (cut - 1) (by omega)⟩
    · simp

/-- A log of file offsets. -/
structure LogLevel.Valid (l : LogLevel) : Prop where
  ordered : Ordered l.mapping
  nonneg : ∀ x ∈ l.mapping, 0 ≤ x.lo

variable {top : LogLevel}

/-- A call whose top level logs something of the request. -/
theorem levelCursor_cons (hbase : Appends base) (htop : top.Valid) (hlo : lo ≤ hi)
    (hs : tbxIslSearch lo hi top.mapping = ir :: l) (hc : c = levelCursor base top lo hi []) :
    Counting lo hi c ∧ (base.isSome → ¬Gapless hi ir.hi l → 0 < c.excess) ∧
      (base = none ∨ Gapless hi ir.hi l →
        c.stack = (frontChanges base lo ir.lo).1 ++ (ir :: l).map (slogChange top.seg lo hi) ∧
        c.nbytes = (frontChanges base lo ir.lo).2 +
          changedBytes ((ir :: l).map (slogChange top.seg lo hi))) := by
  have hfound : ∀ x ∈ ir :: l, x ∈ top.mapping ∧ Meets lo hi x := by
    intro x hx
    rw [← hs] at hx
    exact mem_search.mp hx
  have hord : Ordered (ir :: l) := by
    have := htop.ordered.search lo hi
    rwa [show search lo hi top.mapping = ir :: l from hs] at this
  obtain ⟨hne, hafter, hord'⟩ := ordered_ranges.mp hord
  obtain ⟨hir, hmeet⟩ := hfound ir (by simp)
  have hover : ir.lo ≤ hi ∧ lo ≤ ir.hi := (meets_iff hne hlo).mp hmeet
  have hnonneg := htop.nonneg ir hir
  obtain ⟨hin, hcount⟩ := frontChanges_inside hbase lo ir.lo
  have hfront : Counting lo hi (frontCursor base lo ir.lo) :=
    ⟨fun c hc => (hin c hc).mono le_rfl (by omega), hcount⟩
  have hpos := hfront.nbytes_nonneg
  obtain ⟨hlog, hmore, hexcess⟩ := log_spec top.seg hlo hfront hne hmeet
  rw [levelCursor, hs, foldl_cons, changeRange_first] at hc
  obtain ⟨hcounting, _, hstrict, hrecords⟩ := rest_spec hbase hlo hord'
    (fun x hx => (hfound x (by simp [hx])).2) hlog (by omega) (show lo ≤ ir.hi by omega)
    (show 0 ≤ ir.hi by omega) hafter hc
  refine ⟨hcounting, fun hsome hgap => ?_, fun h => ?_⟩
  · have := hstrict hsome hgap
    have : 0 ≤ (frontCursor base lo ir.lo).excess := Int.sub_nonneg.mpr hfront.counted
    omega
  · obtain ⟨hstack, hn⟩ := hrecords h
    simp only [ChangeCursor.log, frontCursor] at hstack hn
    refine ⟨by simpa using hstack, ?_⟩
    rw [hn, map_cons, changedBytes_cons]
    omega

/-- Put records under those of a cursor. -/
def ChangeCursor.over (stack : List SlogChange) (c : ChangeCursor) : ChangeCursor :=
  { c with stack := stack ++ c.stack }

theorem descend_over (hbase : Appends base)
    (stack : List SlogChange) (a b : Int) (c : ChangeCursor) :
    (c.over stack).descend base a b = (c.descend base a b).over stack := by
  cases base with
  | none => rfl
  | some call =>
    have happ := (hbase call rfl).appends a b
    simp only [ChangeCursor.descend, ChangeCursor.over]
    rw [happ (stack ++ c.stack), happ c.stack, append_assoc]

/-- A level treats the records already on the stack as if they were not there. -/
theorem levelCursor_over (hbase : Appends base) (top : LogLevel)
    (lo hi : Int) (stack : List SlogChange) :
    levelCursor base top lo hi stack = (levelCursor base top lo hi []).over stack := by
  have hstep (c : ChangeCursor) (ir : SlogRange) :
      changeRange base top.seg lo hi (c.over stack) ir =
        (changeRange base top.seg lo hi c ir).over stack := by
    have hstart : gapStart lo (c.over stack) ir = gapStart lo c ir := rfl
    unfold changeRange
    rw [hstart, descend_over hbase]
    split_ifs <;> simp [ChangeCursor.log, ChangeCursor.over]
  have hrest (c : ChangeCursor) :
      changeRest base lo hi (c.over stack) = (changeRest base lo hi c).over stack := by
    have hprev : (c.over stack).prevEnd = c.prevEnd := rfl
    unfold changeRest
    rw [hprev, descend_over hbase, descend_over hbase]
    split_ifs <;> rfl
  have hempty : (⟨stack, 0, -1⟩ : ChangeCursor) = ChangeCursor.over stack ⟨[], 0, -1⟩ := by
    simp [ChangeCursor.over]
  rw [levelCursor, hempty, foldl_hom (ChangeCursor.over stack) hstep, hrest]
  rfl

theorem levelCursor_nil (hs : tbxIslSearch lo hi top.mapping = []) (stack : List SlogChange) :
    levelCursor base top lo hi stack = ChangeCursor.descend base lo hi ⟨stack, 0, -1⟩ := by
  simp [levelCursor, hs, changeRest]

/-- The base a call on the top of a stack descends to. -/
def baseCall (below : List LogLevel) : Option ChangeCall :=
  if below.isEmpty then none else some (slogChanges below)

theorem slogChanges_cons (top : LogLevel) (below : List LogLevel) (lo hi : Int)
    (stack : List SlogChange) :
    slogChanges (top :: below) lo hi stack =
      ((levelCursor (baseCall below) top lo hi stack).stack,
        (levelCursor (baseCall below) top lo hi stack).nbytes) := rfl

theorem appending_slogChanges (h : ∀ l ∈ levels, l.Valid) : Appending (slogChanges levels) := by
  induction levels with
  | nil => exact ⟨by simp [slogChanges], by simp [slogChanges], by simp [slogChanges]⟩
  | cons top below ih =>
    have hbase : Appends (baseCall below) := by
      intro call hcall
      unfold baseCall at hcall
      split_ifs at hcall
      cases hcall
      exact ih fun l hl => h l (by simp [hl])
    have hcounting (lo hi : Int) (hlo : lo ≤ hi) :
        Counting lo hi (levelCursor (baseCall below) top lo hi []) := by
      cases hs : tbxIslSearch lo hi top.mapping with
      | nil =>
        rw [levelCursor_nil hs]
        exact (descend_spec hbase ⟨by simp, by simp⟩ le_rfl hlo le_rfl).1
      | cons ir l => exact (levelCursor_cons hbase (h top (by simp)) hlo hs rfl).1
    refine ⟨fun lo hi stack => ?_, fun lo hi hlo => ?_, fun lo hi hlo => ?_⟩
    · rw [slogChanges_cons, levelCursor_over hbase]
      rfl
    · exact (hcounting lo hi hlo).inside
    · exact (hcounting lo hi hlo).counted

variable {below : List LogLevel} {cut : Int}

theorem topmost_cons (top : LogLevel) (below : List LogLevel) (o : Int) :
    topmost (top :: below) o =
      match lookup top.mapping o with
      | none => topmost below o
      | some d => some (top.seg, d) := by
  rw [topmost, List.findSome?_cons]
  cases lookup top.mapping o <;> rfl

/-- The records of the ranges a level logs in the request. -/
def levelChanges (top : LogLevel) (lo hi : Int) : List SlogChange :=
  (tbxIslSearch lo hi top.mapping).map (slogChange top.seg lo hi)

/-- The records of a level cover what it logs. -/
theorem levelChanges_accumulated (htop : top.Valid) (hlo : lo ≤ hi) :
    Accumulated [top] lo hi (levelChanges top lo hi) (changedBytes (levelChanges top lo hi)) := by
  have hsource : ∀ c ∈ levelChanges top lo hi, ∀ o, c.lo ≤ o → o ≤ c.hi →
      topmost [top] o = some (c.seg, c.segOffset + (o - c.lo)) := by
    intro c hc o hco hoc
    obtain ⟨x, hx, rfl⟩ := mem_map.mp hc
    rw [slogChange_eq] at hco hoc ⊢
    dsimp only at hco hoc ⊢
    have hlook := (lookup_eq_some_iff htop.ordered).mpr
      ⟨x, (mem_search.mp hx).1, show x.lo ≤ o by omega, show o ≤ x.hi by omega, rfl⟩
    rw [topmost_cons, hlook, Option.some.injEq, Prod.mk.injEq]
    exact ⟨rfl, by omega⟩
  refine ⟨?_, ?_, ?_, hsource, rfl⟩
  · refine pairwise_map.mpr ((htop.ordered.search lo hi).apart.imp fun h => ?_)
    simp only [spanned_lo, spanned_hi] at h
    simp only [slogChange_eq]
    omega
  · intro c hc
    obtain ⟨x, hx, rfl⟩ := mem_map.mp hc
    obtain ⟨hxm, hmeet⟩ := mem_search.mp hx
    exact slogChange_inside hlo (htop.ordered.nonempty x hxm) hmeet
  · intro o hol hoh
    constructor
    · rintro ⟨c, hc, hco, hoc⟩
      rw [hsource c hc o hco hoc]
      rfl
    · intro hsome
      cases hd : lookup top.mapping o with
      | none => simp [hd, topmost] at hsome
      | some d =>
        obtain ⟨x, hx, hxo, hox, _⟩ := (lookup_eq_some_iff htop.ordered).mp hd
        have hmeet : Meets lo hi x := meets_def.mpr (by omega)
        refine ⟨_, mem_map_of_mem (mem_search.mpr ⟨hx, hmeet⟩), ?_⟩
        rw [slogChange_eq]
        dsimp only
        omega

/-- When the top level logs exactly the offsets from `cut` on, the records of a call
are right exactly when those for the part before `cut` are right for the levels
below. -/
theorem accumulated_append_iff (htop : top.Valid) (hlo : lo ≤ hi) (hcut : cut ≤ hi + 1)
    (hnone : ∀ o, lo ≤ o → o < cut → lookup top.mapping o = none)
    (hall : ∀ o, cut ≤ o → o ≤ hi → (lookup top.mapping o).isSome)
    (hcs : ∀ c ∈ cs, c.Inside lo (cut - 1)) (k : Int) :
    Accumulated (top :: below) lo hi (cs ++ levelChanges top lo hi)
        (k + changedBytes (levelChanges top lo hi)) ↔
      Accumulated below lo (cut - 1) cs k := by
  have hlevel := levelChanges_accumulated htop hlo
  have hbelow (o : Int) (hol : lo ≤ o) (hoc : o < cut) :
      topmost (top :: below) o = topmost below o := by
    rw [topmost_cons, hnone o hol hoc]
  have htopmost (o : Int) (hsome : (lookup top.mapping o).isSome) :
      topmost (top :: below) o = topmost [top] o := by
    obtain ⟨d, hd⟩ := Option.isSome_iff_exists.mp hsome
    rw [topmost_cons, topmost_cons, hd]
  have hrecords : ∀ c ∈ levelChanges top lo hi, cut ≤ c.lo := by
    intro c hc
    by_contra hlt
    have hin := hlevel.inside c hc
    have hsrc := hlevel.source c hc c.lo le_rfl hin.nonempty
    rw [topmost_cons, hnone c.lo hin.lo (by omega)] at hsrc
    simp [topmost] at hsrc
  have hcovers (o : Int) : (∃ c ∈ cs ++ levelChanges top lo hi, c.lo ≤ o ∧ o ≤ c.hi) ↔
      (∃ c ∈ cs, c.lo ≤ o ∧ o ≤ c.hi) ∨ ∃ c ∈ levelChanges top lo hi, c.lo ≤ o ∧ o ≤ c.hi := by
    simp only [mem_append, or_and_right, exists_or]
  have hbefore (o : Int) (ho : o < cut) : ¬∃ c ∈ levelChanges top lo hi, c.lo ≤ o ∧ o ≤ c.hi := by
    rintro ⟨c, hc, _⟩
    have := hrecords c hc
    omega
  have hbehind (o : Int) (ho : cut ≤ o) : ¬∃ c ∈ cs, c.lo ≤ o ∧ o ≤ c.hi := by
    rintro ⟨c, hc, _⟩
    have := (hcs c hc).hi
    omega
  have hfront : ∀ c ∈ cs, ∀ o, c.lo ≤ o → o ≤ c.hi →
      topmost (top :: below) o = topmost below o := by
    intro c hc o hco hoc
    have := (hcs c hc).lo
    have := (hcs c hc).hi
    exact hbelow o (by omega) (by omega)
  constructor
  · intro h
    refine ⟨(pairwise_append.mp h.disjoint).1, hcs, ?_, ?_, ?_⟩
    · intro o hol hoh
      rw [← hbelow o hol (by omega), ← h.covers o hol (by omega), hcovers,
        or_iff_left (hbefore o (by omega))]
    · intro c hc o hco hoc
      rw [← hfront c hc o hco hoc]
      exact h.source c (mem_append_left _ hc) o hco hoc
    · have := h.count
      rw [changedBytes_append] at this
      omega
  · intro h
    refine ⟨?_, ?_, ?_, ?_, ?_⟩
    · refine pairwise_append.mpr ⟨h.disjoint, hlevel.disjoint, fun a ha b hb => ?_⟩
      have := (h.inside a ha).hi
      have := hrecords b hb
      omega
    · exact forall_mem_append.mpr
        ⟨fun c hc => (h.inside c hc).mono le_rfl (by omega), hlevel.inside⟩
    · intro o hol hoh
      by_cases hoc : o < cut
      · rw [hbelow o hol hoc, ← h.covers o hol (by omega), hcovers, or_iff_left (hbefore o hoc)]
      · rw [htopmost o (hall o (by omega) hoh), ← hlevel.covers o hol hoh, hcovers,
          or_iff_right (hbehind o (by omega))]
    · intro c hc o hco hoc
      rcases mem_append.mp hc with hc | hc
      · rw [hfront c hc o hco hoc]
        exact h.source c hc o hco hoc
      · have := hrecords c hc
        have := (hlevel.inside c hc).hi
        rw [htopmost o (hall o (by omega) (by omega))]
        exact hlevel.source c hc o hco hoc
    · rw [changedBytes_append, ← h.count]

/-- The ranges found leave no gap exactly when every offset behind the first one is
logged. -/
theorem gapless_iff (hord : Ordered l) {p} (hp : ∀ x ∈ l, p < x.lo) (hmeet : ∀ x ∈ l, x.lo ≤ hi) :
    Gapless hi p l ↔ ∀ o, p < o → o ≤ hi → ∃ x ∈ l, x.lo ≤ o ∧ o ≤ x.hi := by
  induction l generalizing p with
  | nil =>
    simp only [Gapless, not_mem_nil, false_and, exists_false]
    refine ⟨fun h o hpo hoh => by omega, fun h => ?_⟩
    by_contra hlt
    exact h hi (by omega) le_rfl
  | cons ir l ih =>
    obtain ⟨hirhi, hmeet'⟩ := forall_mem_cons.mp hmeet
    obtain ⟨hne, hafter, hord'⟩ := ordered_ranges.mp hord
    have hir := hp ir (by simp)
    rw [Gapless, ih hord' hafter hmeet']
    constructor
    · rintro ⟨hlo, hrest⟩ o hpo hoh
      by_cases ho : o ≤ ir.hi
      · exact ⟨ir, by simp, by omega, ho⟩
      · obtain ⟨x, hx, hin⟩ := hrest o (by omega) hoh
        exact ⟨x, by simp [hx], hin⟩
    · intro h
      refine ⟨?_, fun o ho hoh => ?_⟩
      · obtain ⟨x, hx, hxo, _⟩ := h (p + 1) (by omega) (by omega)
        rcases mem_cons.mp hx with rfl | hx
        · omega
        · have := hafter x hx
          omega
      · obtain ⟨x, hx, hxo, hox⟩ := h o (by omega) hoh
        rcases mem_cons.mp hx with rfl | hx
        · omega
        · exact ⟨x, hx, hxo, hox⟩

/-- Inside the request a level logs what the ranges found cover. -/
theorem isSome_lookup_iff (m : Mapping) {o} (hol : lo ≤ o) (hoh : o ≤ hi) :
    (lookup m o).isSome ↔ ∃ x ∈ tbxIslSearch lo hi m, x.lo ≤ o ∧ o ≤ x.hi := by
  rw [← Option.ne_none_iff_isSome, ne_eq, lookup_eq_none_iff]
  push Not
  constructor
  · rintro ⟨x, hx, hxo, hox⟩
    exact ⟨x, mem_search.mpr ⟨hx, meets_def.mpr (by omega)⟩, hxo, hox⟩
  · rintro ⟨x, hx, hin⟩
    exact ⟨x, (mem_search.mp hx).1, hin⟩

/-- The first range found starts the logged part of the request. -/
theorem first_found (htop : top.Valid) (hlo : lo ≤ hi)
    (hs : tbxIslSearch lo hi top.mapping = ir :: l) :
    max lo ir.lo ≤ hi ∧ (∀ o, lo ≤ o → o < max lo ir.lo → lookup top.mapping o = none) ∧
      (lookup top.mapping (max lo ir.lo)).isSome ∧
      (Gapless hi ir.hi l ↔ ∀ o, max lo ir.lo ≤ o → o ≤ hi → (lookup top.mapping o).isSome) := by
  have hord : Ordered (tbxIslSearch lo hi top.mapping) := htop.ordered.search lo hi
  have hover : ∀ x ∈ ir :: l, x.lo ≤ hi ∧ lo ≤ x.hi := by
    intro x hx
    rw [← hs] at hx
    obtain ⟨hxm, hmeet⟩ := mem_search.mp hx
    exact (meets_iff (htop.ordered.nonempty x hxm) hlo).mp hmeet
  rw [hs] at hord
  obtain ⟨hne, hafter, hord'⟩ := ordered_ranges.mp hord
  have hir := hover ir (by simp)
  have hlogged (o : Int) (hol : lo ≤ o) (hoh : o ≤ hi) :
      (lookup top.mapping o).isSome ↔ ∃ x ∈ ir :: l, x.lo ≤ o ∧ o ≤ x.hi := by
    rw [isSome_lookup_iff _ hol hoh, hs]
  refine ⟨by omega, fun o hol hoc => ?_, ?_, ?_⟩
  · rw [← Option.not_isSome_iff_eq_none, hlogged o hol (by omega)]
    rintro ⟨x, hx, hxo, _⟩
    rcases mem_cons.mp hx with rfl | hx
    · omega
    · have := hafter x hx
      omega
  · exact (hlogged _ (by omega) (by omega)).mpr ⟨ir, by simp, by omega, by omega⟩
  · have hgapless : Gapless hi (ir.lo - 1) (ir :: l) ↔ Gapless hi ir.hi l := by simp [Gapless]
    rw [← hgapless, gapless_iff hord (forall_mem_cons.mpr ⟨by omega, fun x hx => ?_⟩)
      fun x hx => (hover x hx).1]
    · constructor
      · exact fun h o hco hoh => (hlogged o (by omega) hoh).mpr (h o (by omega) hoh)
      · intro h o ho hoh
        by_cases hol : lo ≤ o
        · exact (hlogged o hol hoh).mp (h o (by omega) hoh)
        · exact ⟨ir, by simp, by omega, by omega⟩
    · have := hafter x hx
      omega

/-- Nothing to record is right exactly when nothing is logged. -/
theorem accumulated_nil_iff (levels : List LogLevel) :
    Accumulated levels lo hi [] 0 ↔ ∀ o, lo ≤ o → o ≤ hi → topmost levels o = none := by
  constructor
  · intro h o hol hoh
    have := h.covers o hol hoh
    simpa using this
  · intro h
    exact ⟨List.Pairwise.nil, by simp, fun o hol hoh => by simp [h o hol hoh], by simp, rfl⟩

/-- The part before the first logged offset of the top level. -/
theorem accumulated_front_iff {call} (hcut : lo ≤ cut)
    (hcall : lo ≤ cut - 1 →
      (Accumulated below lo (cut - 1) (call lo (cut - 1) []).1 (call lo (cut - 1) []).2 ↔
      Stepped below lo (cut - 1))) :
    Accumulated below lo (cut - 1) (frontChanges (some call) lo cut).1
        (frontChanges (some call) lo cut).2 ↔
      cut = lo ∨ (cut = lo + 1 ∧ topmost below lo = none) ∨
        (lo + 1 < cut ∧ Stepped below lo (cut - 1)) := by
  unfold frontChanges
  split_ifs with h
  · rw [hcall (by omega)]
    constructor
    · exact fun hst => .inr (.inr ⟨h, hst⟩)
    · rintro (h' | ⟨h', _⟩ | ⟨_, hst⟩)
      · omega
      · omega
      · exact hst
  · rw [accumulated_nil_iff]
    constructor
    · intro hnone
      by_cases heq : cut = lo
      · exact .inl heq
      · exact .inr (.inl ⟨by omega, hnone lo le_rfl (by omega)⟩)
    · rintro (rfl | ⟨rfl, hnone⟩ | ⟨h', _⟩) o hol hoh
      · omega
      · rwa [show o = lo by omega]
      · exact absurd h' h

theorem frontChanges_max (base : Option ChangeCall) (lo cut : Int) :
    frontChanges base lo (max lo cut) = frontChanges base lo cut := by
  by_cases hcut : lo ≤ cut
  · rw [max_eq_right hcut]
  · rw [max_eq_left (by omega)]
    cases base with
    | none => rfl
    | some call => simp only [frontChanges, show ¬lo + 1 < cut by omega, show ¬lo + 1 < lo by omega,
        if_false]

/-- `Stepped` for a log over a log, at the place the top level starts to log. -/
theorem stepped_iff (hbelow : below ≠ []) (hlo : lo ≤ cut) (hcut : cut ≤ hi + 1)
    (hnone : ∀ o, lo ≤ o → o < cut → lookup top.mapping o = none)
    (hat : cut ≤ hi → (lookup top.mapping cut).isSome) :
    Stepped (top :: below) lo hi ↔
      (∀ o, cut ≤ o → o ≤ hi → (lookup top.mapping o).isSome) ∧
        (cut = lo ∨ (cut = lo + 1 ∧ cut ≤ hi ∧ topmost below lo = none) ∨
          ((lo + 1 < cut ∨ cut = hi + 1) ∧ Stepped below lo (cut - 1))) := by
  obtain ⟨b, bs, rfl⟩ := exists_cons_of_ne_nil hbelow
  constructor
  · rintro ⟨cut', hlo', hcut', hnone', hall', hcases⟩
    have heq : cut' = cut := by
      rcases lt_trichotomy cut' cut with hlt | heq | hgt
      · have := hall' cut' le_rfl (by omega)
        simp [hnone cut' hlo' hlt] at this
      · exact heq
      · have := hat (by omega)
        simp [hnone' cut hlo hgt] at this
    subst heq
    exact ⟨hall', hcases⟩
  · rintro ⟨hall, hcases⟩
    exact ⟨cut, hlo, hcut, hnone, hall, hcases⟩

/-- The lowest level adds its own records. -/
theorem levelCursor_bottom (htop : top.Valid) (hlo : lo ≤ hi) :
    (levelCursor none top lo hi []).stack = levelChanges top lo hi ∧
      (levelCursor none top lo hi []).nbytes = changedBytes (levelChanges top lo hi) := by
  cases hs : tbxIslSearch lo hi top.mapping with
  | nil => simp [levelCursor_nil hs, levelChanges, hs, ChangeCursor.descend]
  | cons ir l =>
    have hrecords := (levelCursor_cons (by simp [Appends]) htop hlo hs rfl).2.2 (.inl rfl)
    simpa [levelChanges, hs, frontChanges] using hrecords

theorem lookup_none_of_search_nil (hs : tbxIslSearch lo hi top.mapping = []) (o : Int)
    (hol : lo ≤ o) (hoh : o < hi + 1) : lookup top.mapping o = none := by
  rw [← Option.not_isSome_iff_eq_none, isSome_lookup_iff _ hol (Int.le_of_lt_add_one hoh), hs]
  simp

/-- A level that logs nothing of the request leaves it to the levels below. -/
theorem accumulated_below_iff (below : List LogLevel) (htop : top.Valid) (hlo : lo ≤ hi)
    (hs : tbxIslSearch lo hi top.mapping = []) (hcs : ∀ c ∈ cs, c.Inside lo hi) (k : Int) :
    Accumulated (top :: below) lo hi cs k ↔ Accumulated below lo hi cs k := by
  have hempty : levelChanges top lo hi = [] := by simp [levelChanges, hs]
  have hall (o : Int) (ho : hi + 1 ≤ o) (hoh : o ≤ hi) : (lookup top.mapping o).isSome := by omega
  simpa [hempty] using accumulated_append_iff htop hlo (Int.le_refl (hi + 1))
    (lookup_none_of_search_nil hs) hall (by rwa [Int.add_sub_cancel]) k

/-- A call is right exactly on the stacks that are stepped over the request. The
induction is on the levels; the top level leaves the part before its first logged
offset to the levels below. -/
theorem accumulated_slogChanges_iff (h : ∀ l ∈ levels, l.Valid) (hlo : lo ≤ hi) :
    Accumulated levels lo hi (slogChanges levels lo hi []).1 (slogChanges levels lo hi []).2 ↔
      Stepped levels lo hi := by
  induction levels generalizing hi with
  | nil =>
    simp only [slogChanges, Stepped, iff_true]
    exact (accumulated_nil_iff []).mpr fun o _ _ => rfl
  | cons top below ih =>
    obtain ⟨htop, h'⟩ := forall_mem_cons.mp h
    have hvalid : ∀ l ∈ below, l.Valid := h'
    rw [slogChanges_cons]
    by_cases hbelow : below = []
    · subst hbelow
      have hbase : baseCall [] = none := rfl
      obtain ⟨hstack, hn⟩ := levelCursor_bottom htop hlo
      rw [hbase, hstack, hn]
      exact iff_of_true (levelChanges_accumulated htop hlo) trivial
    · have hcall := appending_slogChanges hvalid
      have hsome : baseCall below = some (slogChanges below) := by
        simp [baseCall, hbelow]
      have hbase : Appends (baseCall below) := by
        rw [hsome]
        rintro _ ⟨⟩
        exact hcall
      cases hs : tbxIslSearch lo hi top.mapping with
      | nil =>
        have hnone := lookup_none_of_search_nil hs
        have happ := accumulated_below_iff below htop hlo hs (hcall.inside lo hi hlo)
          (slogChanges below lo hi []).2
        rw [levelCursor_nil hs, hsome]
        simp only [ChangeCursor.descend, zero_add]
        rw [happ, ih hvalid hlo, stepped_iff hbelow (show lo ≤ hi + 1 by omega) le_rfl hnone
          (by omega), Int.add_sub_cancel]
        constructor
        · exact fun hst => ⟨by omega, .inr (.inr ⟨.inr rfl, hst⟩)⟩
        · rintro ⟨_, hcut | ⟨_, hcut, _⟩ | ⟨_, hst⟩⟩
          · omega
          · omega
          · exact hst
      | cons ir l =>
        obtain ⟨hcut, hnone, hat, hgapless⟩ := first_found htop hlo hs
        obtain ⟨_, hexcess, hrecords⟩ := levelCursor_cons hbase htop hlo hs rfl
        rw [stepped_iff hbelow (show lo ≤ max lo ir.lo by omega) (by omega) hnone
          (fun _ => hat), ← hgapless]
        by_cases hgap : Gapless hi ir.hi l
        · have hfront := accumulated_front_iff (show lo ≤ max lo ir.lo by omega)
            fun hle => ih hvalid hle
          have hin := (frontChanges_inside hbase lo (max lo ir.lo)).1
          obtain ⟨hstack, hn⟩ := hrecords (.inr hgap)
          rw [← frontChanges_max, ← hs] at hstack hn
          rw [hstack, hn]
          refine (accumulated_append_iff htop hlo (by omega) hnone (hgapless.mp hgap) hin
            _).trans ?_
          rw [hsome, hfront]
          have hlast : ¬max lo ir.lo = hi + 1 := by omega
          simp [hgap, hcut, hlast]
        · refine iff_of_false (fun hacc => ?_) (fun hst => hgap hst.1)
          have := hexcess (by simp [hsome]) hgap
          have := hacc.count
          simp only [ChangeCursor.excess] at *
          omega

/-- For every stack of logs, every request and every stack of earlier records, the
call adds what it should exactly when the logs are stepped over the request. -/
theorem slogChanges_accumulates_iff (top : LogLevel) (below : List LogLevel)
    (h : ∀ l ∈ top :: below, l.Valid) (hlo : lo ≤ hi) (stack : List SlogChange) :
    (∃ cs nbytes, slogChanges (top :: below) lo hi stack = (stack ++ cs, nbytes) ∧
        Accumulated (top :: below) lo hi cs nbytes) ↔
      Stepped (top :: below) lo hi := by
  rw [← accumulated_slogChanges_iff h hlo, (appending_slogChanges h).appends lo hi stack]
  constructor
  · rintro ⟨cs, nbytes, heq, hacc⟩
    obtain ⟨hcs, rfl⟩ := Prod.mk.inj heq
    rwa [append_cancel_left hcs]
  · exact fun hacc => ⟨_, _, rfl, hacc⟩

/-- A log of the first two bytes over a log of the first four. -/
def twoLogs : List LogLevel := [⟨1, [⟨0, 1, 0⟩]⟩, ⟨2, [⟨0, 3, 0⟩]⟩]

theorem slogChanges_accumulates_iff_twoLogs :
    ∃ cs nbytes, slogChanges twoLogs 0 1 [] = ([] ++ cs, nbytes) ∧
      Accumulated twoLogs 0 1 cs nbytes := by
  have hstepped : Stepped twoLogs 0 1 := by
    refine ⟨0, le_rfl, by decide, fun o h0 hlt => by omega, fun o h0 h1 => ?_, .inl rfl⟩
    simp [lookup, h0, h1]
  refine (slogChanges_accumulates_iff _ [⟨2, [⟨0, 3, 0⟩]⟩] ?_ (by decide) []).mpr hstepped
  intro l hl
  simp only [mem_cons, not_mem_nil, or_false] at hl
  rcases hl with rfl | rfl
  · exact ⟨ordered_cons.mpr ⟨by decide, by simp, ordered_nil⟩, by decide⟩
  · exact ⟨ordered_cons.mpr ⟨by decide, by simp, ordered_nil⟩, by decide⟩

/-- Over four bytes the records of the two logs share an offset, and the count is
seven. -/
theorem twoLogs_overlap : slogChanges twoLogs 0 3 [] = ([⟨1, 0, 1, 2, 0⟩, ⟨2, 1, 3, 3, 1⟩], 7) := by
  decide

end LStore.Log
