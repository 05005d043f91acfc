import LStore.Osd.Blocks

/-!
# The walk over the blocks of a request

`fs_chksum_read` and `fs_chksum_write` go over the blocks of a byte range in the same way: each
grant of the range lock covers the next blocks, the first and the last block of the request may
be partial, and the blocks between them are whole. They differ in what they do with a block.
-/

namespace LStore.Osd

open MachineInt

variable {b : Nat}

/-- The results of `fs_mapping`. -/
structure Mapping where
  startBlock : Nat
  endBlock : Nat
  startOffset : Nat
  startSize : Nat
  endSize : Nat
  deriving DecidableEq, Repr

/-- `fs_mapping`. -/
def fsMapping (o : Object) (offset len : Nat) : Mapping :=
  let hbs := o.headerBlocksize
  let bs := o.blocksize
  let first := offset - hbs
  let last := if len = 0 then offset else offset + len - 1
  let final := last - hbs
  { startBlock := if offset < hbs then 0 else first / bs + 1
    startOffset := if offset < hbs then offset else first % bs
    startSize :=
      if offset < hbs then if hbs < len + offset then hbs - offset else len
      else if bs < len + first % bs then bs - first % bs else len
    endBlock := if last < hbs then 0 else final / bs + 1
    endSize := if last < hbs then len else final % bs + 1 }

/-- What a request does with its first block, with a whole block and with its last block. The
key is the value of `start_block` when the block is handled. -/
structure Handlers (σ : Type*) where
  first : (block bpos : Nat) → σ → σ
  middle : (key block bpos : Nat) → σ → σ
  last : (key bpos : Nat) → σ → σ

/-- The variables of the loop. -/
structure Progress (σ : Type*) where
  startBlock : Nat
  bpos : Nat
  inner : σ

variable {σ : Type*} (o : Object) (h : Handlers σ) (m : Mapping)

/-- The loop over whole blocks, `count` of them from `block` on. -/
def middleLoop (key : Nat) : (count block : Nat) → Progress σ → Progress σ
  | 0, _, p => p
  | count + 1, block, p =>
    middleLoop key count (block + 1)
      { p with bpos := p.bpos + o.blocksize, inner := h.middle key block p.bpos p.inner }

/-- The variable `got_last`, an `int`. -/
def gotLast (endGot : Nat) : Int :=
  if endGot = m.endBlock then i32 (i32 endGot - 1) else i32 endGot

/-- One turn of the loop, under a grant up to `endGot`. -/
def walkTurn (endGot : Nat) (p : Progress σ) : Progress σ :=
  let p₁ := if p.bpos = 0 then
    { startBlock := p.startBlock + 1, bpos := p.bpos + m.startSize,
      inner := h.first p.startBlock p.bpos p.inner } else p
  let p₂ := middleLoop o h p₁.startBlock (gotLast m endGot + 1 - p₁.startBlock).toNat
    p₁.startBlock p₁
  let p₃ := if endGot = m.endBlock ∧ m.endBlock ≠ m.startBlock then
    { p₂ with inner := h.last p₂.startBlock p₂.bpos p₂.inner } else p₂
  { p₃ with startBlock := endGot + 1 }

/-- The loop, under the grants that the lock gives one after the other. -/
def walk : List Nat → Progress σ → Progress σ
  | [], p => p
  | e :: es, p =>
    let p := walkTurn o h m e p
    if e < m.endBlock then walk es p else p

/-- The grants the lock may give from a block on: each reaches at least the block it starts from
and at most the last one of the request. -/
inductive Grants (endBlock : Nat) : Nat → List Nat → Prop
  | last {s : Nat} (le : s ≤ endBlock) : Grants endBlock s [endBlock]
  | more {s e : Nat} {es : List Nat} (le : s ≤ e) (lt : e < endBlock)
      (rest : Grants endBlock (e + 1) es) : Grants endBlock s (e :: es)

/-- The grants handle one block each, besides the first block of the request. -/
def SingleGrants (startBlock : Nat) : List Nat → Prop
  | [] => True
  | e :: es => e ≤ startBlock + 1 ∧ (e :: es).IsChain fun e e' => e' = e + 1

/-- The position in the caller's buffer at a block. -/
def Mapping.bposOf (o : Object) (m : Mapping) (b : Nat) : Nat :=
  if b = m.startBlock then 0 else m.startSize + (b - m.startBlock - 1) * o.blocksize

/-- The whole blocks of a request have numbers that fit into an `int`. With the last block at
`2 ^ 31`, `got_last--` starts at the least `int`, and the decrement is taken to wrap around. -/
def Mapping.IntMiddle (m : Mapping) : Prop :=
  m.endBlock ≤ m.startBlock + 1 ∨ m.endBlock ≤ 2147483648

variable {o : Object} {h : Handlers σ} {m : Mapping} {I : Nat → σ → Prop} {K : Nat → Nat → Prop}

variable {p : Progress σ}

theorem middleLoop_rule {key} (count : Nat) (hlo : m.startBlock < b)
    (hhi : b + count ≤ m.endBlock) (hkey : ∀ c, b ≤ c → c < b + count → K key c)
    (hbpos : p.bpos = m.bposOf o b)
    (hmiddle : ∀ key b s, m.startBlock < b → b < m.endBlock → K key b → I b s →
      I (b + 1) (h.middle key b (m.bposOf o b) s))
    (hI : I b p.inner) :
    (middleLoop o h key count b p).startBlock = p.startBlock ∧
      (middleLoop o h key count b p).bpos = m.bposOf o (b + count) ∧
      I (b + count) (middleLoop o h key count b p).inner := by
  induction count generalizing b p with
  | zero => exact ⟨rfl, hbpos, hI⟩
  | succ count ih =>
    have hnext : m.bposOf o b + o.blocksize = m.bposOf o (b + 1) := by
      rw [Mapping.bposOf, Mapping.bposOf, if_neg (by omega), if_neg (by omega), add_assoc]
      congr 1
      rw [show b + 1 - m.startBlock - 1 = b - m.startBlock - 1 + 1 by omega, add_mul,
        one_mul]
    rw [middleLoop, show b + (count + 1) = b + 1 + count by omega]
    refine ih (by omega) (by omega) (fun c hc hc' => hkey c (by omega) (by omega)) ?_ ?_
    · rw [hbpos, hnext]
    · rw [hbpos]
      exact hmiddle key b p.inner hlo (by omega) (hkey b le_rfl (by omega)) hI

/-- The loop over whole blocks makes as many turns as there are whole blocks under the grant. -/
theorem middleCount_eq (hint : m.IntMiddle) {e} (hb : m.startBlock < b) (he : e ≤ m.endBlock) :
    (gotLast m e + 1 - (b : Int)).toNat = (if e = m.endBlock then e else e + 1) - b := by
  unfold Mapping.IntMiddle at hint
  unfold gotLast i32
  split <;> omega

theorem bposOf_start : m.bposOf o m.startBlock = 0 := if_pos rfl

theorem bposOf_next : m.bposOf o (m.startBlock + 1) = m.startSize := by
  rw [Mapping.bposOf, if_neg (by omega), show m.startBlock + 1 - m.startBlock - 1 = 0 by omega,
    Nat.zero_mul, add_zero]

/-- What the walk has reached when `b` is the next block. -/
structure Reaches (o : Object) (m : Mapping) (I : Nat → σ → Prop) (b : Nat) (p : Progress σ) :
    Prop where
  start : p.startBlock = b
  lo : m.startBlock ≤ b
  bpos : b ≤ m.endBlock → p.bpos = m.bposOf o b
  inv : I b p.inner

/-- The value of `start_block` under which the blocks of a turn behind the first block of the
request are handled. -/
def Mapping.turnKey (m : Mapping) (b : Nat) : Nat := if b = m.startBlock then b + 1 else b

variable (hsize : 1 ≤ m.startSize) (hint : m.IntMiddle)
  (hfirst : ∀ s, I m.startBlock s → I (m.startBlock + 1) (h.first m.startBlock 0 s))
  (hmiddle : ∀ key b s, m.startBlock < b → b < m.endBlock → K key b → I b s →
    I (b + 1) (h.middle key b (m.bposOf o b) s))
  (hlast : ∀ key s, m.startBlock < m.endBlock → K key m.endBlock → I m.endBlock s →
    I (m.endBlock + 1) (h.last key (m.bposOf o m.endBlock) s))

include hsize hfirst in
/-- The first part of a turn. -/
theorem turn_first (hp : Reaches o m I b p) (hb : b ≤ m.endBlock) :
    Reaches o m I (m.turnKey b) (if p.bpos = 0 then
      { startBlock := p.startBlock + 1, bpos := p.bpos + m.startSize,
        inner := h.first p.startBlock p.bpos p.inner } else p) := by
  have hbpos := hp.bpos hb
  by_cases hzero : b = m.startBlock
  · subst hzero
    rw [bposOf_start] at hbpos
    rw [if_pos hbpos, Mapping.turnKey, if_pos rfl, hp.start, hbpos]
    exact ⟨rfl, Nat.le_succ _, fun _ => by rw [bposOf_next, zero_add], hfirst _ hp.inv⟩
  · have hpos : p.bpos ≠ 0 := by
      rw [hbpos, Mapping.bposOf, if_neg hzero]
      omega
    rw [if_neg hpos, Mapping.turnKey, if_neg hzero]
    exact hp

include hsize hint hfirst hmiddle hlast in
/-- A turn handles the blocks of its grant. -/
theorem turn_rule {e} (hp : Reaches o m I b p) (hb : b ≤ e) (he : e ≤ m.endBlock)
    (hkey : ∀ c, m.turnKey b ≤ c → c ≤ e → K (m.turnKey b) c) :
    Reaches o m I (e + 1) (walkTurn o h m e p) := by
  have hlo := hp.lo
  have hturn : b ≤ m.turnKey b ∧ m.turnKey b ≤ b + 1 ∧ m.startBlock < m.turnKey b := by
    unfold Mapping.turnKey
    split <;> omega
  have hp₁ := turn_first hsize hfirst hp (by omega)
  rw [walkTurn]
  generalize (if p.bpos = 0 then
      { startBlock := p.startBlock + 1, bpos := p.bpos + m.startSize,
        inner := h.first p.startBlock p.bpos p.inner } else p) = p₁ at hp₁ ⊢
  rw [hp₁.start, middleCount_eq hint hturn.2.2 he]
  by_cases hlastTurn : e = m.endBlock
  · rw [if_pos hlastTurn]
    by_cases hsingle : m.turnKey b ≤ e
    · obtain ⟨hstart, hbpos, hinv⟩ := middleLoop_rule (o := o) (h := h) (e - m.turnKey b)
        hturn.2.2 (by omega) (fun c hc hc' => hkey c hc (by omega)) (hp₁.bpos (by omega))
        hmiddle hp₁.inv
      rw [show m.turnKey b + (e - m.turnKey b) = m.endBlock by omega] at hbpos hinv
      rw [if_pos ⟨hlastTurn, by omega⟩, hstart, hbpos, hp₁.start]
      have hdone := hlast _ _ (by omega) (hkey _ (by omega) (by omega)) hinv
      rw [← hlastTurn] at hdone ⊢
      exact ⟨rfl, by omega, fun hle => by omega, hdone⟩
    · -- the request has a single block
      have hkeyEq : m.turnKey b = e + 1 := by omega
      have hone : m.endBlock = m.startBlock := by
        unfold Mapping.turnKey at hkeyEq
        split at hkeyEq <;> omega
      rw [show e - m.turnKey b = 0 by omega, middleLoop, if_neg fun hand => hand.2 hone]
      have hinv := hp₁.inv
      rw [hkeyEq] at hinv
      exact ⟨rfl, by omega, fun hle => by omega, hinv⟩
  · rw [if_neg hlastTurn, if_neg fun hand => hlastTurn hand.1]
    obtain ⟨-, hbpos, hinv⟩ := middleLoop_rule (o := o) (h := h) (e + 1 - m.turnKey b)
      hturn.2.2 (by omega) (fun c hc hc' => hkey c hc (by omega)) (hp₁.bpos (by omega))
      hmiddle hp₁.inv
    rw [show m.turnKey b + (e + 1 - m.turnKey b) = e + 1 by omega] at hbpos hinv
    exact ⟨rfl, by omega, fun _ => hbpos, hinv⟩

/-- The keys of all blocks behind the first one, under grants from block `b` on. -/
def Keyed (m : Mapping) (K : Nat → Nat → Prop) : Nat → List Nat → Prop
  | _, [] => True
  | b, e :: es =>
    (∀ c, m.turnKey b ≤ c → c ≤ e → K (m.turnKey b) c) ∧ Keyed m K (e + 1) es

theorem keyed_true (b : Nat) (es : List Nat) : Keyed m (fun _ _ => True) b es := by
  induction es generalizing b with
  | nil => trivial
  | cons e es ih => exact ⟨fun _ _ _ => trivial, ih (e + 1)⟩

include hsize hint hfirst hmiddle hlast in
/-- What the first, the middle and the last step keep, the whole walk keeps. -/
theorem walk_rule {es} (hgrants : Grants m.endBlock b es) (hp : Reaches o m I b p)
    (hkeys : Keyed m K b es) : I (m.endBlock + 1) (walk o h m es p).inner := by
  induction hgrants generalizing p with
  | last le =>
    rw [walk, if_neg (lt_irrefl _)]
    exact (turn_rule hsize hint hfirst hmiddle hlast hp le le_rfl hkeys.1).inv
  | more le lt _ ih =>
    rw [walk, if_pos lt]
    exact ih (turn_rule hsize hint hfirst hmiddle hlast hp le (le_of_lt lt) hkeys.1) hkeys.2

/-- The offset at which a block starts in the object. -/
def Object.blockStart (o : Object) (b : Nat) : Nat :=
  if b = 0 then 0 else o.headerBlocksize + (b - 1) * o.blocksize

theorem Object.blockStart_succ (o : Object) (b : Nat) :
    o.blockStart (b + 1) = o.blockStart b + o.blockBytes b := by
  cases b with
  | zero => simp [blockStart, blockBytes]
  | succ b =>
    simp only [blockStart, blockBytes, Nat.add_one_ne_zero, if_false, Nat.add_sub_cancel,
      Nat.add_mul]
    omega

theorem Object.blockStart_add (o : Object) (b k : Nat) :
    o.blockStart (b + 1 + k) = o.blockStart (b + 1) + k * o.blocksize := by
  simp only [blockStart, show b + 1 + k ≠ 0 by omega, Nat.add_one_ne_zero, if_false,
    Nat.add_sub_cancel, show b + 1 + k - 1 = b + k by omega, Nat.add_mul]
  omega

/-- The blocks of a mapping are those of the byte range, with the sizes of the pieces. -/
structure Mapping.Covers (o : Object) (offset len : Nat) (m : Mapping) : Prop where
  le : m.startBlock ≤ m.endBlock
  start : offset = o.blockStart m.startBlock + m.startOffset
  size_pos : 1 ≤ m.startSize
  start_fits : m.startOffset + m.startSize ≤ o.blockBytes m.startBlock
  one : m.startBlock = m.endBlock → m.startSize = len
  more : m.startBlock < m.endBlock → m.startOffset + m.startSize = o.blockBytes m.startBlock
  end_pos : 1 ≤ m.endSize
  end_fits : m.startBlock < m.endBlock → m.endSize ≤ o.blockBytes m.endBlock
  finish : m.startBlock < m.endBlock → o.blockStart m.endBlock + m.endSize = offset + len

theorem fsMapping_covers (o : Object) (offset : Nat) {len} (hlen : 1 ≤ len) :
    (fsMapping o offset len).Covers o offset len := by
  have hbs := o.blocksize_pos
  have hlen₀ : (if len = 0 then offset else offset + len - 1) = offset + len - 1 := by
    rw [if_neg (by omega)]
  simp only [fsMapping, hlen₀]
  by_cases hfirst : offset < o.headerBlocksize
  · by_cases hlast : offset + len - 1 < o.headerBlocksize
    · have hsize : ¬o.headerBlocksize < len + offset := by omega
      simp only [if_pos hfirst, if_pos hlast, if_neg hsize]
      constructor <;> simp [Object.blockStart, Object.blockBytes] <;> omega
    · have hsize : o.headerBlocksize < len + offset := by omega
      have hmod := Nat.mod_lt (offset + len - 1 - o.headerBlocksize) hbs
      have hdiv := Nat.div_add_mod' (offset + len - 1 - o.headerBlocksize) o.blocksize
      simp only [if_pos hfirst, if_neg hlast, if_pos hsize]
      constructor <;> simp [Object.blockStart, Object.blockBytes] <;> omega
  · have hlast : ¬offset + len - 1 < o.headerBlocksize := by omega
    have hmod := Nat.mod_lt (offset - o.headerBlocksize) hbs
    have hdiv := Nat.div_add_mod' (offset - o.headerBlocksize) o.blocksize
    have hmod' := Nat.mod_lt (offset + len - 1 - o.headerBlocksize) hbs
    have hdiv' := Nat.div_add_mod' (offset + len - 1 - o.headerBlocksize) o.blocksize
    have hmono := Nat.div_le_div_right (c := o.blocksize)
      (show offset - o.headerBlocksize ≤ offset + len - 1 - o.headerBlocksize by omega)
    generalize (offset - o.headerBlocksize) / o.blocksize = q at *
    generalize (offset - o.headerBlocksize) % o.blocksize = r at *
    generalize (offset + len - 1 - o.headerBlocksize) / o.blocksize = q' at *
    generalize (offset + len - 1 - o.headerBlocksize) % o.blocksize = r' at *
    have hnext : q < q' → q * o.blocksize + o.blocksize ≤ q' * o.blocksize := by
      intro hlt
      have hmul := Nat.mul_le_mul_right o.blocksize (show q + 1 ≤ q' from hlt)
      rwa [Nat.add_mul, Nat.one_mul] at hmul
    have hsame : q = q' → q * o.blocksize = q' * o.blocksize := fun heq => by rw [heq]
    split_ifs with hsize
    · constructor <;> simp [Object.blockStart, Object.blockBytes] <;> omega
    · constructor <;> simp [Object.blockStart, Object.blockBytes] <;> omega

section

variable {offset len : Nat} (hm : m.Covers o offset len)
include hm

/-- Behind the first block the buffer position of a block is its place in the range. -/
theorem Mapping.Covers.bposOf_eq (hlo : m.startBlock < b) (hhi : b ≤ m.endBlock) :
    offset + m.bposOf o b = o.blockStart b := by
  obtain ⟨k, rfl⟩ : ∃ k, b = m.startBlock + 1 + k := ⟨b - m.startBlock - 1, by omega⟩
  have hstart := hm.start
  have hmore := hm.more (by omega)
  rw [o.blockStart_add, o.blockStart_succ, Mapping.bposOf, if_neg (by omega),
    show m.startBlock + 1 + k - m.startBlock - 1 = k by omega]
  omega

end

end LStore.Osd
