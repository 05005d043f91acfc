import LStore.Segment.Copy

/-!
# What a segment copy moves

The loop of a copy carries one block in the buffer: it is read from the source and not yet
in the destination. From this the copy moves the bytes asked for whenever its first block is
not longer than the request. Otherwise the remainder becomes negative, which the loop takes for
unknown, and the copy never ends. Space for no bytes is reserved by a truncation to size 0.
-/

namespace LStore.Segment

open ByteCopy Base.Fuel List CopyState

theorem mathGcd_natCast (a b : Nat) : mathGcd a b = (Nat.gcd a b : Int) := by
  induction a, b using Nat.gcd.induction with
  | H0 b =>
    rw [mathGcd]
    simp
  | H1 a b ha ih =>
    rw [mathGcd, dif_neg (by omega), ← Int.natCast_emod, ih, ← Nat.gcd_rec]

theorem mathLcm_natCast (a b : Nat) : mathLcm a b = (Nat.lcm a b : Int) := by
  rw [mathLcm, mathGcd_natCast, Nat.lcm_eq_mul_div, Int.natCast_ediv, Int.natCast_mul]

theorem mathLcm_eq {a b} (ha : 0 ≤ a) (hb : 0 ≤ b) : mathLcm a b = (Int.lcm a b : Int) := by
  obtain ⟨m, rfl⟩ := Int.eq_ofNat_of_zero_le ha
  obtain ⟨n, rfl⟩ := Int.eq_ofNat_of_zero_le hb
  exact mathLcm_natCast m n

/-- The size of one half of the buffer, from the request alone. -/
def halfRoom (sc : SegmentCopy) (srcBlock destBlock : Int) : Int :=
  if sc.bufsize / 2 < Int.lcm srcBlock destBlock ∨ sc.srcOffset ≠ 0 ∨ sc.destOffset ≠ 0 then
    sc.bufsize / 2
  else sc.bufsize / 2 - sc.bufsize / 2 % Int.lcm srcBlock destBlock

variable {sc : SegmentCopy} {srcBlock destBlock : Int}

theorem copyBufsize_eq (hs : 1 ≤ srcBlock) (hd : 1 ≤ destBlock) :
    copyBufsize sc (mathLcm srcBlock destBlock) = halfRoom sc srcBlock destBlock := by
  have hdiv := Int.mul_ediv_add_emod (sc.bufsize / 2) (Int.lcm srcBlock destBlock)
  rw [mathLcm_eq (by omega) (by omega), copyBufsize, halfRoom]
  split
  · rfl
  · rw [Int.mul_comm]
    omega

theorem halfRoom_pos (hs : 1 ≤ srcBlock) (hd : 1 ≤ destBlock) (hbuf : 2 ≤ sc.bufsize) :
    0 < halfRoom sc srcBlock destBlock := by
  have hlcm : 0 < Int.lcm srcBlock destBlock := Int.lcm_pos (by omega) (by omega)
  have hmod := Int.emod_lt_of_pos (sc.bufsize / 2) (Int.natCast_pos.mpr hlcm)
  rw [halfRoom]
  split
  · omega
  · omega

theorem two_halfRoom_le (srcBlock destBlock : Int) (hbuf : 2 ≤ sc.bufsize) :
    2 * halfRoom sc srcBlock destBlock ≤ sc.bufsize := by
  have hmod : 0 ≤ sc.bufsize / 2 % Int.lcm srcBlock destBlock := by
    by_cases h : (Int.lcm srcBlock destBlock : Int) = 0
    · rw [h, Int.emod_zero]
      omega
    · exact Int.emod_nonneg _ h
  rw [halfRoom]
  split <;> omega

theorem blockLen_of_nonneg {nbytes} (bufsize : Int) (h : 0 ≤ nbytes) :
    blockLen nbytes bufsize = min nbytes bufsize := by
  rw [blockLen, if_neg (by omega)]
  split <;> omega

theorem blockLen_bounds (nbytes : Int) {len} (h : 0 < len) :
    0 ≤ blockLen nbytes len ∧ blockLen nbytes len ≤ len ∧
      (nbytes ≠ 0 → 0 < blockLen nbytes len) := by
  rw [blockLen]
  split
  · omega
  · split <;> omega

variable {a d B n : Int} {src dest : Flat} {s : CopyState}

/-- The destination holds the bytes of the source up to the write position, out of `n` bytes
from `a` to `d`, and the transfers stayed inside the two halves of `B` bytes. -/
structure Piped (a d : Int) (src dest : Flat) (B n : Int) (s : CopyState) : Prop where
  halves : (s.rbuf = 0 ∧ s.wbuf = B) ∨ (s.rbuf = B ∧ s.wbuf = 0)
  wpos : d ≤ s.wpos ∧ s.wpos ≤ d + n
  copied : Agree s.dest.data d src.data a (s.wpos - d)
  kept : ∀ x, ¬(d ≤ x ∧ x < s.wpos) → s.dest.data x = dest.data x
  drains : ∀ t ∈ s.log, t.dir = .drain → d ≤ t.pos ∧ t.pos + t.len ≤ d + n
  room : ∀ t ∈ s.log, 0 ≤ t.buf ∧ t.buf + t.len ≤ 2 * B

section

variable (h : Piped a d src dest B n s)
include h

theorem Piped.swap : Piped a d src dest B n s.swap :=
  { h with halves := h.halves.symm.imp And.symm And.symm }

theorem Piped.fill {pos m} (hm : 0 ≤ m ∧ m ≤ B) : Piped a d src dest B n (s.fill src pos m) := by
  refine { h with drains := ?_, room := ?_ }
  · intro t ht hdir
    rcases mem_append.mp ht with ht | ht
    · exact h.drains t ht hdir
    · rw [mem_singleton.mp ht] at hdir
      simp at hdir
  · refine forall_mem_append.mpr ⟨h.room, forall_mem_singleton.mpr ?_⟩
    rcases h.halves with ⟨h0, hB⟩ | ⟨hB, h0⟩ <;> simp only <;> omega

theorem Piped.drain {m} (hm : 0 ≤ m ∧ m ≤ B) (hn : s.wpos + m ≤ d + n)
    (hblock : Agree s.mem s.wbuf src.data (a + (s.wpos - d)) m) :
    Piped a d src dest B n (s.drain m) := by
  obtain ⟨hwpos, _⟩ := h.wpos
  constructor
  case halves => exact h.halves
  case wpos => simp only [CopyState.drain]; omega
  case copied =>
    have hnext := h.copied.copyBytes_next hblock
    rw [show d + (s.wpos - d) = s.wpos by omega] at hnext
    simp only [CopyState.drain, Flat.write]
    rwa [show s.wpos + m - d = s.wpos - d + m by omega]
  case kept =>
    intro x hx
    simp only [CopyState.drain] at hx
    simp only [CopyState.drain, Flat.write]
    rw [copyBytes_outside (by omega)]
    exact h.kept x (by omega)
  case drains =>
    intro t ht hdir
    rcases mem_append.mp ht with ht | ht
    · exact h.drains t ht hdir
    · rw [mem_singleton.mp ht]
      exact ⟨hwpos, hn⟩
  case room =>
    refine forall_mem_append.mpr ⟨h.room, forall_mem_singleton.mpr ?_⟩
    rcases h.halves with ⟨h0, hB⟩ | ⟨hB, h0⟩ <;> simp only <;> omega

/-- A read into the one half does not touch the block in the other. -/
theorem Piped.fill_block {pos m k b} (hm : m ≤ B) (hk : k ≤ B)
    (hblock : Agree s.mem s.wbuf src.data b k) :
    Agree (s.fill src pos m).mem s.wbuf src.data b k := by
  apply hblock.copyBytes_apart
  rcases h.halves with ⟨h0, hB⟩ | ⟨hB, h0⟩ <;> omega

/-- The order of the two operations of a turn is not seen. -/
theorem Piped.both {w pos k m} (hk : 0 ≤ k ∧ k ≤ B) (hm : 0 ≤ m ∧ m ≤ B) (hn : s.wpos + m ≤ d + n)
    (hblock : Agree s.mem s.wbuf src.data (a + (s.wpos - d)) m) :
    Piped a d src dest B n (s.both w src pos k m) ∧
      Agree (s.both w src pos k m).mem (s.both w src pos k m).rbuf src.data pos k := by
  rw [CopyState.both]
  split
  · exact ⟨(h.drain hm hn hblock).fill hk, Agree.copyBytes src.data s.mem pos s.rbuf k⟩
  · exact ⟨(h.fill hk).drain hm hn (h.fill_block hk.2 hm.2 hblock),
      Agree.copyBytes src.data s.mem pos s.rbuf k⟩

end

@[simp] theorem CopyState.wpos_both (w : Bool) (src : Flat) (pos k m : Int) (s : CopyState) :
    (s.both w src pos k m).wpos = s.wpos + m := by
  cases w <;> rfl

/-- What holds at the head of a loop: one more block is in the read buffer, and `nbytes` counts
what is not yet read. -/
structure PipeHead (a d : Int) (src dest : Flat) (B n : Int) (s : CopyState) : Prop
    extends Piped a d src dest B n s where
  rlen : 0 ≤ s.rlen ∧ s.rlen ≤ B
  block : Agree s.mem s.rbuf src.data (a + (s.wpos - d)) s.rlen
  rpos : s.rpos = a + (s.wpos - d) + s.rlen
  nbytes : s.nbytes = n - (s.wpos - d) - s.rlen
  left : 0 ≤ s.nbytes

/-- Nothing is written before the first turn. -/
theorem Piped.start (hrbuf : s.rbuf = 0) (hwbuf : s.wbuf = B) (hwpos : s.wpos = d)
    (hlog : s.log = []) (hdest : s.dest.data = dest.data) (hn : 0 ≤ n) :
    Piped a d src dest B n s where
  halves := .inl ⟨hrbuf, hwbuf⟩
  wpos := by omega
  copied := Agree.empty (by omega)
  kept x _ := by rw [hdest]
  drains := by simp [hlog]
  room := by simp [hlog]

/-- The initial read leads to the head of the loop. -/
theorem PipeHead.start (h : Piped a d src dest B n s) (hwpos : s.wpos = d)
    (hrlen : 0 ≤ s.rlen ∧ s.rlen ≤ B) (hle : s.rlen ≤ n) (hrpos : s.rpos = a + s.rlen)
    (hnbytes : s.nbytes = n - s.rlen) : PipeHead a d src dest B n (s.fill src a s.rlen) := by
  refine { h.fill hrlen with
    rlen := hrlen, block := ?_, rpos := ?_, nbytes := ?_, left := ?_ }
  · simp only [fill, hwpos, sub_self, add_zero]
    exact Agree.copyBytes src.data s.mem a s.rbuf _
  · simp only [fill]
    omega
  · simp only [fill]
    omega
  · simp only [fill]
    omega

/-- A turn that reads and writes leads to the head of the loop again. -/
theorem PipeHead.next {k} (h : PipeHead a d src dest B n s) (w : Bool) (turn : Nat)
    (hk : 0 ≤ k ∧ k ≤ B) (hkn : k ≤ s.nbytes) :
    PipeHead a d src dest B n
      { s.swap.both w src s.rpos k s.rlen with
        rpos := s.rpos + k, nbytes := s.nbytes - k, rlen := k, turn } := by
  have hnbytes := h.nbytes
  have hrpos := h.rpos
  have hboth : Piped a d src dest B n (s.swap.both w src s.rpos k s.rlen) ∧
      Agree (s.swap.both w src s.rpos k s.rlen).mem (s.swap.both w src s.rpos k s.rlen).rbuf
        src.data s.rpos k :=
    h.toPiped.swap.both hk h.rlen (by simp only [CopyState.swap]; omega) h.block
  have hwpos : (s.swap.both w src s.rpos k s.rlen).wpos = s.wpos + s.rlen :=
    CopyState.wpos_both w src s.rpos k s.rlen s.swap
  refine { hboth.1 with rlen := hk, block := ?_, rpos := ?_, nbytes := ?_, left := ?_ }
  · simp only [hwpos]
    rw [show a + (s.wpos + s.rlen - d) = s.rpos by omega]
    exact hboth.2
  · simp only [hwpos]
    omega
  · simp only [hwpos]
    omega
  · simp only
    omega

/-- The turn that finds nothing left writes the last block. -/
theorem PipeHead.last (h : PipeHead a d src dest B n s) (hzero : s.nbytes = 0) :
    Piped a d src dest B n (s.swap.drain s.rlen) ∧ (s.swap.drain s.rlen).wpos = d + n := by
  have hnbytes := h.nbytes
  constructor
  · exact h.toPiped.swap.drain h.rlen (by simp only [CopyState.swap]; omega) h.block
  · simp only [CopyState.drain, CopyState.swap]
    omega

variable {env : CopyEnv} {size : Int}

/-- The size that writes from `d` up to `w` leave. -/
def grown (size d w : Int) : Int := if d < w then max size w else size

theorem size_drain {m} (h : s.dest.size = grown size d s.wpos) (hd : d ≤ s.wpos) (hm : 0 ≤ m) :
    (s.drain m).dest.size = grown size d (s.wpos + m) := by
  simp only [CopyState.drain, Flat.write, h, grown]
  split_ifs <;> omega

theorem size_both {m} (w : Bool) (src : Flat) (pos k : Int) (h : s.dest.size = grown size d s.wpos)
    (hd : d ≤ s.wpos) (hm : 0 ≤ m) :
    (s.both w src pos k m).dest.size = grown size d (s.wpos + m) := by
  cases w <;> exact size_drain h hd hm

/-- The head of the loop of a copy, with the size of the destination. -/
structure CopyHead (a d : Int) (src dest : Flat) (B n size : Int) (s : CopyState) : Prop
    extends PipeHead a d src dest B n s where
  size : s.dest.size = grown size d s.wpos

/-- Each turn takes the next block from what is left; the last one finds nothing left. -/
theorem CopyHead.copyTurn (hok : ∀ k, env.ok k = true) (hB : 0 < B)
    (h : CopyHead a d src dest B n size s) :
    Ends False (fun _ => copyTurn env src B s)
      (Turn (CopyHead a d src dest B n size) (· < ·) (fun s => s.nbytes.toNat)
        (fun r => r.1 = true ∧ Piped a d src dest B n r.2 ∧ r.2.wpos = d + n ∧
          r.2.dest.size = grown size d (d + n)) s) := by
  have hleft := h.left
  have hlen : blockLen s.nbytes B = min s.nbytes B := blockLen_of_nonneg B hleft
  have hswap : s.swap.nbytes = s.nbytes := rfl
  simp only [Segment.copyTurn, hok, Bool.true_eq_false, if_false, hswap, hlen]
  by_cases hpos : 0 < min s.nbytes B
  · simp only [hpos, if_true]
    apply Ends.ok
    refine ⟨{ h.next _ _ (by omega) (by omega) with size := ?_ }, ?_⟩
    · simp only [wpos_both]
      exact size_both (s := s.swap) _ src _ _ h.size h.wpos.1 h.rlen.1
    · simp only
      omega
  · simp only [hpos, if_false]
    apply Ends.ok
    have hlast := h.last (by omega)
    have hsize := size_drain (s := s.swap) h.size h.wpos.1 h.rlen.1
    exact ⟨rfl, { hlast.1 with }, hlast.2, hlast.2 ▸ hsize⟩

/-- The number of bytes a request asks for. -/
def copyCount (sc : SegmentCopy) (src : Flat) : Int :=
  if sc.len = -1 then src.size - sc.srcOffset else min sc.len (src.size - sc.srcOffset)

/-- The first block is not longer than the request. -/
def FirstBlockFits (sc : SegmentCopy) (srcBlock destBlock : Int) (src : Flat) : Prop :=
  sc.len = -1 ∨ src.size - sc.srcOffset ≤ sc.len ∨ halfRoom sc srcBlock destBlock ≤ sc.len

/-- The space that is reserved is not of size 0, or the destination has nothing to lose. -/
def KeepsRest (sc : SegmentCopy) (src dest : Flat) : Prop :=
  0 < sc.destOffset + copyCount sc src ∨ sc.truncate = 1 ∨ dest.size ≤ 0

/-- A copy of the `n` bytes asked for that ended in success. -/
structure Copied (sc : SegmentCopy) (src dest : Flat) (r : CopyResult) : Prop where
  success : r.status.opStatus = .success
  bytes : ∀ k, 0 ≤ k → k < copyCount sc src →
    r.dest.byteAt (sc.destOffset + k) = src.byteAt (sc.srcOffset + k)
  kept : ∀ x b, dest.byteAt x = some b →
    ¬(sc.destOffset ≤ x ∧ x < sc.destOffset + copyCount sc src) →
    (sc.truncate = 1 → x < sc.destOffset + copyCount sc src) → r.dest.byteAt x = some b
  drains : ∀ t ∈ r.log, t.dir = .drain →
    sc.destOffset ≤ t.pos ∧ t.pos + t.len ≤ sc.destOffset + copyCount sc src
  size : sc.truncate = 1 → r.dest.size = sc.destOffset + copyCount sc src
  room : ∀ t ∈ r.log, 0 ≤ t.buf ∧ t.buf + t.len ≤ sc.bufsize

@[simp] theorem Flat.data_truncate (f : Flat) (newSize : Int) :
    (f.truncate newSize).data = f.data := by
  rw [Flat.truncate]
  split <;> rfl

variable {mem : Int → Byte}

theorem copyHead_copyStart (dest : Flat) (mem : Int → Byte) (hoff : sc.srcOffset ≤ src.size)
    (hB : 0 < B) (hfit : sc.len = -1 ∨ src.size - sc.srcOffset ≤ sc.len ∨ B ≤ sc.len) :
    CopyHead sc.srcOffset sc.destOffset src dest B (copyCount sc src)
      (dest.truncate (-(sc.destOffset + copyCount sc src))).size
      (copyStart src sc B mem dest) := by
  have hfirst : blockLen (src.size - sc.srcOffset) B = min (src.size - sc.srcOffset) B :=
    blockLen_of_nonneg B (by omega)
  have hcount : (if sc.len ≠ -1 ∧ sc.len < src.size - sc.srcOffset then sc.len
      else src.size - sc.srcOffset) = copyCount sc src := by
    rw [copyCount]
    split <;> split <;> omega
  have hle : min (src.size - sc.srcOffset) B ≤ copyCount sc src := by
    rw [copyCount]
    split <;> omega
  have hrlen : 0 ≤ min (src.size - sc.srcOffset) B ∧ min (src.size - sc.srcOffset) B ≤ B := by
    omega
  simp only [copyStart, hfirst, hcount]
  refine { PipeHead.start (.start rfl rfl rfl rfl (Flat.data_truncate _ _)
    (hrlen.1.trans hle)) rfl hrlen hle rfl rfl with size := ?_ }
  exact (if_neg (lt_irrefl _)).symm

theorem copyCount_nonneg (hoff : sc.srcOffset ≤ src.size) (hlen : sc.len = -1 ∨ 0 ≤ sc.len) :
    0 ≤ copyCount sc src := by
  rw [copyCount]
  split <;> omega

theorem copyCount_le (sc : SegmentCopy) (src : Flat) :
    copyCount sc src ≤ src.size - sc.srcOffset := by
  rw [copyCount]
  split <;> omega

theorem Flat.byteAt_of_lt {f : Flat} {x} (h0 : 0 ≤ x) (hlt : x < f.size) :
    f.byteAt x = some (f.data x) := if_pos ⟨h0, hlt⟩

/-- What the loop leaves, with the truncation at the end, is exact if the reservation has not
emptied the destination. -/
theorem Piped.copied_iff {r} (h : Piped sc.srcOffset sc.destOffset src dest B (copyCount sc src) s)
    (hend : s.wpos = sc.destOffset + copyCount sc src)
    (hsize : s.dest.size = grown (dest.truncate (-(sc.destOffset + copyCount sc src))).size
      sc.destOffset (sc.destOffset + copyCount sc src))
    (hn : 0 ≤ copyCount sc src) (hoff : 0 ≤ sc.srcOffset) (hdoff : 0 ≤ sc.destOffset)
    (hroom : 2 * B ≤ sc.bufsize) (hs : r.status.opStatus = .success) (hlog : r.log = s.log)
    (hdest : r.dest = if sc.truncate = 1 then s.dest.truncate s.wpos else s.dest) :
    Copied sc src dest r ↔ KeepsRest sc src dest := by
  have hle := copyCount_le sc src
  have hdata : r.dest.data = s.dest.data := by
    rw [hdest]
    split
    · exact Flat.data_truncate _ _
    · rfl
  have hrsize : r.dest.size = if sc.truncate = 1 then sc.destOffset + copyCount sc src
      else s.dest.size := by
    rw [hdest]
    split
    · rw [hend, Flat.truncate, if_neg (by omega)]
    · rfl
  constructor
  · intro hcopied
    by_contra hnot
    simp only [KeepsRest, not_or, Int.not_le, Int.not_lt] at hnot
    -- the first byte of the destination is lost
    have hfirst := hcopied.kept 0 _ (Flat.byteAt_of_lt le_rfl hnot.2.2) (by omega)
      (fun htrunc => absurd htrunc hnot.2.1)
    have hzero : sc.destOffset + copyCount sc src = 0 := by omega
    rw [Flat.byteAt, hrsize, if_neg hnot.2.1, hsize, grown, hzero, if_neg (not_lt.mpr hdoff)]
      at hfirst
    simp [Flat.truncate] at hfirst
  · intro hrest
    constructor
    case success => exact hs
    case bytes =>
      intro k h0 hk
      have hcopied := h.copied k h0 (by omega)
      rw [Flat.byteAt_of_lt (by omega) ?_, Flat.byteAt_of_lt (by omega) (by omega), hdata, hcopied]
      rw [hrsize, hsize, grown]
      split <;> omega
    case kept =>
      intro x b hb hout htrunc
      obtain ⟨hx, rfl⟩ : (0 ≤ x ∧ x < dest.size) ∧ dest.data x = b := by
        simpa [Flat.byteAt] using hb
      rw [Flat.byteAt_of_lt hx.1 ?_, hdata, h.kept x (by rwa [hend])]
      rw [hrsize, hsize, grown, Flat.truncate]
      rcases hrest with hpos | hasked | hempty
      · rw [if_pos (show -(sc.destOffset + copyCount sc src) < 0 by omega)]
        split <;> omega
      · rw [if_pos hasked]
        exact htrunc hasked
      · omega
    case drains => exact hlog ▸ h.drains
    case size => exact fun htrunc => by rw [hrsize, if_pos htrunc]
    case room =>
      intro t ht
      have := h.room t (hlog ▸ ht)
      omega

/-- A copy whose first block fits ends, and is exact unless it empties the destination. -/
theorem copied_iff_of_fits (hok : ∀ k, env.ok k = true) (hs : 1 ≤ srcBlock) (hd : 1 ≤ destBlock)
    (hbuf : 2 ≤ sc.bufsize) (hoff : 0 ≤ sc.srcOffset ∧ sc.srcOffset ≤ src.size)
    (hdoff : 0 ≤ sc.destOffset) (hlen : sc.len = -1 ∨ 0 ≤ sc.len)
    (hfit : FirstBlockFits sc srcBlock destBlock src) :
    Ends False (lioSegmentCopyGopFunc env src sc srcBlock destBlock dest mem)
      (fun r => Copied sc src dest r ↔ KeepsRest sc src dest) := by
  have hB := halfRoom_pos hs hd hbuf
  have hstart := copyHead_copyStart dest mem hoff.2 hB hfit
  unfold lioSegmentCopyGopFunc
  simp only [copyBufsize_eq hs hd, hok 0, Bool.true_eq_false, if_false]
  apply Ends.bind (Ends.loop wellFounded_lt (fun s hs => hs.copyTurn hok hB) hstart)
  rintro ⟨_, s⟩ ⟨rfl, hloop, hend, hsize⟩
  apply Ends.ok
  exact hloop.copied_iff hend hsize (copyCount_nonneg hoff.2 hlen) hoff.1 hdoff
    (two_halfRoom_le srcBlock destBlock hbuf) rfl rfl rfl

/-- Once the remainder is negative every turn reads another whole block. -/
theorem loop_copyTurn_of_neg (hok : ∀ k, env.ok k = true) (hB : 0 < B) (fuel : Nat)
    (h : s.nbytes < 0) : loop (copyTurn env src B) fuel s = .error .running := by
  induction fuel generalizing s with
  | zero => rfl
  | succ fuel ih =>
    have hlen : blockLen s.nbytes B = B := if_pos h
    have hswap : s.swap.nbytes = s.nbytes := rfl
    simp only [loop, copyTurn, hok, Bool.true_eq_false, if_false, hswap, hlen, hB, if_true]
    apply ih
    simp only
    omega

theorem copyStart_nbytes_neg (hoff : sc.srcOffset ≤ src.size)
    (hlen : sc.len ≠ -1 ∧ sc.len < src.size - sc.srcOffset ∧ sc.len < B) :
    (copyStart src sc B mem dest).nbytes < 0 := by
  have hfirst : blockLen (src.size - sc.srcOffset) B = min (src.size - sc.srcOffset) B :=
    blockLen_of_nonneg B (by omega)
  simp only [copyStart, fill, hfirst]
  omega

/-- A copy whose first block is longer than the request never returns. -/
theorem copy_runs_on (hok : ∀ k, env.ok k = true) (hs : 1 ≤ srcBlock) (hd : 1 ≤ destBlock)
    (hbuf : 2 ≤ sc.bufsize) (hoff : sc.srcOffset ≤ src.size)
    (hfit : ¬FirstBlockFits sc srcBlock destBlock src) (fuel : Nat) :
    lioSegmentCopyGopFunc env src sc srcBlock destBlock dest mem fuel = .error .running := by
  simp only [FirstBlockFits, not_or, Int.not_le] at hfit
  have hneg : (copyStart src sc (halfRoom sc srcBlock destBlock) mem dest).nbytes < 0 :=
    copyStart_nbytes_neg hoff hfit
  unfold lioSegmentCopyGopFunc
  simp only [copyBufsize_eq hs hd, hok 0, Bool.true_eq_false, if_false,
    loop_copyTurn_of_neg hok (halfRoom_pos hs hd hbuf) fuel hneg]
  rfl

end LStore.Segment
