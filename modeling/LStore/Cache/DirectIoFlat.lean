import LStore.Cache.DirectIoSpec

/-!
# Direct I/O and flat access

A flat access carries out the ranges of a request one after another, each with its own
bytes of the caller's buffer. Direct I/O hands every range the buffer offset of the first
one, and the blocks it takes from the caller's buffer may run past the range. `Serves` says
which layouts of the caller's buffer keep them inside, by the places where its pieces start.
-/

namespace LStore.Cache.DirectIo

open ByteCopy Toolbox Segment Dio List Function

variable {p lo len bpos : Int} {tb : Tbuf}

theorem pageStart_eq (p x : Int) : pageStart p x = x - x % p := by
  have := Int.mul_ediv_add_emod x p
  rw [pageStart, mul_comm]
  omega

theorem pageStart_add (p x : Int) : pageStart p x + x % p = x := by
  rw [pageStart_eq]
  omega

theorem pageStart_apart (hp : 1 ≤ p) {x y} (hxy : x ≤ y) :
    pageStart p y - pageStart p x = 0 ∨ p ≤ pageStart p y - pageStart p x := by
  have hdiv : x / p ≤ y / p := Int.ediv_le_ediv (by omega) hxy
  rw [pageStart, pageStart, ← sub_mul]
  rcases lt_or_eq_of_le hdiv with hlt | heq
  · right
    calc p = 1 * p := (Int.one_mul p).symm
      _ ≤ (y / p - x / p) * p := Int.mul_le_mul_of_nonneg_right (by omega) (by omega)
  · left
    rw [heq, Int.sub_self, Int.zero_mul]

/-- A request with room in the caller's buffer. -/
structure Request (pageSize boff : Int) (tb : Tbuf) (iov : List ExIovec) : Prop where
  page : 1 ≤ pageSize
  pageFits : pageSize ≤ 2147483648
  ranges : ∀ v ∈ iov, 0 ≤ v.offset ∧ 1 ≤ v.len
  start : 0 ≤ boff
  total : tb.totalBytes = Toolbox.totalLen tb.iov
  bytes : tb.totalBytes < 2147483648
  room : boff + Segment.totalLen iov ≤ tb.totalBytes

theorem Request.ok {v} (h : Request p bpos tb [v]) :
    (dioTbuf p v.offset (v.offset + v.len - 1) v.len bpos tb).Ok where
  lo := ⟨Int.emod_nonneg _ (by have := h.page; omega),
    Int.emod_lt_of_pos _ (by have := h.page; omega)⟩
  hi := by
    have hp := h.page
    have h0 := Int.emod_nonneg (v.offset + v.len - 1) (show p ≠ 0 by omega)
    have h1 := Int.emod_lt_of_pos (v.offset + v.len - 1) (show 0 < p by omega)
    change 0 ≤ p - (v.offset + v.len - 1) % p - 1 ∧ p - (v.offset + v.len - 1) % p - 1 < p
    omega
  len := (h.ranges v (by simp)).2
  pages := by
    change pageStart p (v.offset + v.len - 1) - pageStart p v.offset + p =
      v.offset % p + v.len + (p - (v.offset + v.len - 1) % p - 1)
    rw [pageStart_eq, pageStart_eq]
    omega
  pstart := pageStart_apart h.page (by have := (h.ranges v (by simp)).2; omega)
  bpos := h.start
  total := h.total
  bytes := h.bytes.le
  room := by
    change bpos + v.len ≤ tb.totalBytes
    simpa [Segment.totalLen] using h.room

theorem pages_mul (p lo hi : Int) :
    (hi / p - lo / p + 1) * p = pageStart p hi - pageStart p lo + p := by
  rw [add_mul, sub_mul, one_mul]
  rfl

theorem memory_tbuf (stack : Memory) (user : Int → Byte) : memory stack user .tbuf = user := by
  rw [memory, update_self]

/-- `cache_direct_rw_op` in read mode. -/
theorem directRead_eq (hok : (dioTbuf p lo (lo + len - 1) len bpos tb).Ok) (stack : Memory)
    (s : State) :
    cacheDirectRwOp p .read lo (lo + len - 1) len bpos tb stack s =
      (dioTbuf p lo (lo + len - 1) len bpos tb).reach.map fun e =>
        let d := dioTbuf p lo (lo + len - 1) len bpos tb
        { s with user := d.readResult lo s.child (stack .hiBuf) s.user e } := by
  have hread := segmentRead_eq hok rfl s.child (pageStart p lo) (memory stack s.user)
  have hjunk : memory stack s.user .hiBuf = stack .hiBuf := by
    rw [memory, update_of_ne (by decide)]
  have hlo : pageStart p lo + (dioTbuf p lo (lo + len - 1) len bpos tb).loExtra = lo :=
    pageStart_add p lo
  rw [memory_tbuf, hjunk, hlo] at hread
  simp only [cacheDirectRwOp, pages_mul]
  have hmap := congrArg (Option.map fun user => { s with user := user }) hread
  rw [Option.map_map, Option.map_map] at hmap
  exact hmap

/-- The page buffers when a write is handed to the child. -/
theorem merged_prefetch {d hiStart} (h : d.Ok) {off currSize} (child : Int → Byte) (mem : Memory)
    (hhi : hiStart = off + d.hiPstart) (hbuf : d.hiBuf = if off ≠ hiStart then .hiBuf else .loBuf)
    (hcurr : hiStart < currSize) (hpos : 0 < currSize) :
    Merged d off child (dioWriteMerge d (prefetch d child off hiStart currSize mem)) ∧
      dioWriteMerge d (prefetch d child off hiStart currSize mem) .tbuf = mem .tbuf := by
  have hpstart := h.pstart
  have hlo := h.lo
  subst hhi
  by_cases hone : d.hiPstart = 0
  · have hsame : ¬off ≠ off + d.hiPstart := by omega
    rw [if_neg hsame] at hbuf
    have hload : prefetch d child off (off + d.hiPstart) currSize mem =
        if d.loExtra ≠ 0 ∨ d.hiExtra ≠ 0 then loadPage d.pageSize child off .loBuf mem
        else mem := by
      rw [prefetch, if_neg hsame, if_neg (by omega)]
    have htbuf : prefetch d child off (off + d.hiPstart) currSize mem .tbuf = mem .tbuf := by
      rw [hload]
      split <;> simp [loadPage]
    rw [← htbuf]
    refine merged_one_page _ h hbuf hone fun hextra x hle hlt => ?_
    rw [hload, if_pos hextra, loadPage, update_self, copyBytes_inside (by omega)]
    congr 1
    omega
  · have hmore : off ≠ off + d.hiPstart := by omega
    rw [if_pos hmore] at hbuf
    have hload : prefetch d child off (off + d.hiPstart) currSize mem = fun a =>
        match a with
        | .tbuf => mem .tbuf
        | .loBuf =>
          if 0 < d.loExtra then copyBytes child off (mem .loBuf) 0 d.pageSize else mem .loBuf
        | .hiBuf =>
          if 0 < d.hiExtra then copyBytes child (off + d.hiPstart) (mem .hiBuf) 0 d.pageSize
          else mem .hiBuf := by
      rw [prefetch, if_pos hmore]
      simp only [if_neg (show ¬currSize < off by omega),
        if_neg (show ¬currSize < off + d.hiPstart by omega), loadPage]
      funext a
      cases a <;> split <;> split <;> simp [update]
    rw [hload]
    refine merged_pages h hbuf (by omega) (fun hextra x hle hlt => ?_)
      (fun hextra x hle hlt => ?_)
    · simp only [if_pos hextra]
      rw [copyBytes_inside (by omega)]
      congr 1
      omega
    · simp only [if_pos hextra]
      rw [copyBytes_inside (by omega)]
      congr 1
      omega

/-- `cache_direct_rw_op` in write mode. -/
theorem directWrite_eq (hp : 1 ≤ p) (hlo : 0 ≤ lo) (hlen : 1 ≤ len)
    (hok : (dioTbuf p lo (lo + len - 1) len bpos tb).Ok) (stack : Memory) (s : State) :
    ∃ size, cacheDirectRwOp p .write lo (lo + len - 1) len bpos tb stack s =
      (dioTbuf p lo (lo + len - 1) len bpos tb).reach.map fun e =>
        { s with child := copyBytes s.user bpos s.child lo (max len (e - bpos)),
                 totalSize := size } := by
  generalize hcurr : (if s.totalSize < lo + len - 1 + 1 then lo + len - 1 + 1 else s.totalSize) =
    currSize
  have hhi : pageStart p (lo + len - 1) ≤ lo + len - 1 := by
    have := Int.emod_nonneg (lo + len - 1) (show p ≠ 0 by omega)
    rw [pageStart_eq]
    omega
  have hstart := pageStart_add p lo
  obtain ⟨d, hd, hdok, hbuf, hreach⟩ : ∃ d, d = (if pageStart p lo ≠ pageStart p (lo + len - 1)
      then dioTbuf p lo (lo + len - 1) len bpos tb
      else { dioTbuf p lo (lo + len - 1) len bpos tb with hiBuf := .loBuf }) ∧ d.Ok ∧
      (d.hiBuf = if pageStart p lo ≠ pageStart p (lo + len - 1) then .hiBuf else .loBuf) ∧
      (d.reach = (dioTbuf p lo (lo + len - 1) len bpos tb).reach ∧
        d.hiPstart = pageStart p (lo + len - 1) - pageStart p lo ∧ d.pageSize = p ∧
        d.loExtra = lo % p ∧ d.blen = len ∧ d.tbufBpos = bpos) := by
    refine ⟨_, rfl, ?_⟩
    split
    · exact ⟨hok, rfl, rfl, rfl, rfl, rfl, rfl, rfl⟩
    · exact ⟨⟨hok.lo, hok.hi, hok.len, hok.pages, hok.pstart, hok.bpos, hok.total, hok.bytes,
        hok.room⟩, rfl, rfl, rfl, rfl, rfl, rfl, rfl⟩
  obtain ⟨hreach, hps, hpage, hextra, hblen, hbposd⟩ := hreach
  obtain ⟨hmerged, htbuf⟩ := merged_prefetch hdok s.child (memory stack s.user)
    (show pageStart p (lo + len - 1) = pageStart p lo + d.hiPstart by omega) hbuf
    (show pageStart p (lo + len - 1) < currSize by omega) (by omega)
  have hwrite := segmentWrite_eq hdok hmerged
  rw [htbuf, memory_tbuf, hreach, hextra, hblen, hbposd, hstart, hps, hpage] at hwrite
  refine ⟨currSize, ?_⟩
  simp only [cacheDirectRwOp, pages_mul, hcurr, ← hd, hwrite, Option.map_map]
  rfl

/-- The copies of a flat read. -/
def readCopies (child : Int → Byte) (boff : Int) (iov : List ExIovec) : List (Copy Byte) :=
  (placed boff iov).map fun w => ⟨child, w.1.offset, w.2, w.1.len⟩

/-- The copies of a flat write. -/
def writeCopies (user : Int → Byte) (boff : Int) (iov : List ExIovec) : List (Copy Byte) :=
  (placed boff iov).map fun w => ⟨user, w.2, w.1.offset, w.1.len⟩

/-- The memory of the caller and the child after a flat access. -/
def flatAccess (mode : Mode) (boff : Int) (iov : List ExIovec) (s : State) :
    (Int → Byte) × (Int → Byte) :=
  match mode with
  | .read => (runCopies (readCopies s.child boff iov) s.user, s.child)
  | .write => (s.user, runCopies (writeCopies s.user boff iov) s.child)

/-- Direct I/O is flat access, whatever stands in the buffers, the segment and the stack. -/
def IsFlat (pageSize : Int) (mode : Mode) (boff : Int) (tb : Tbuf) (iov : List ExIovec) : Prop :=
  ∀ frames s,
    (cacheDirectRwFunc pageSize mode boff tb iov frames s).map (fun s' => (s'.user, s'.child)) =
      some (flatAccess mode boff iov s)

/-- Where the whole pages of a range start in the caller's buffer. -/
def wholeStart (pageSize boff : Int) (v : ExIovec) : Int :=
  if v.offset % pageSize = 0 then boff else boff + (pageSize - v.offset % pageSize)

/-- Where the whole pages of a range end in the caller's buffer. -/
def wholeEnd (pageSize boff : Int) (v : ExIovec) : Int :=
  boff + v.len - (v.offset + v.len) % pageSize

/-- The buffers from which a range is transferred as it should be. -/
inductive Serves (pageSize : Int) (mode : Mode) (boff : Int) (tb : Tbuf) (v : ExIovec) : Prop
  /-- no page of the range is whole -/
  | partialPages (hpages : wholeEnd pageSize boff v ≤ wholeStart pageSize boff v)
  /-- the range ends with a page, and the buffer has no piece that starts in the range more
  than the length of the range and a byte behind the start of the buffer -/
  | wholeLast (hend : (v.offset + v.len) % pageSize = 0) (hboff : 1 ≤ boff)
      (hstart : wholeStart pageSize boff v ≤ v.len + 1)
      (hpieces : ∀ a ∈ starts 0 tb.iov, wholeStart pageSize boff v ≤ a → a < boff + v.len →
        a ≤ v.len + 1)
  /-- the range ends with the buffer, whose last piece holds the whole pages -/
  | lastPiece (hmode : mode = .write ∨ (v.offset + v.len) % pageSize = 0)
      (hend : boff + v.len = tb.totalBytes)
      (hpiece : ∀ a ∈ starts 0 tb.iov, a = 0 ∨ a < wholeStart pageSize boff v)

variable {boff : Int} {v : ExIovec} {mode : Mode}

theorem succ_emod (hp : 1 ≤ p) (x : Int) :
    (x + 1) % p = if x % p + 1 = p then 0 else x % p + 1 := by
  have hlt := Int.emod_lt_of_pos x (show 0 < p by omega)
  have hnonneg := Int.emod_nonneg x (show p ≠ 0 by omega)
  rw [← Int.emod_add_emod]
  split_ifs with hlast
  · rw [hlast, Int.emod_self]
  · exact Int.emod_eq_of_lt (by omega) (by omega)

theorem first_eq (h : Request p boff tb [v]) :
    (dioTbuf p v.offset (v.offset + v.len - 1) v.len boff tb).first = wholeStart p boff v := by
  have hlo := h.ok.lo
  change boff + (if 0 < v.offset % p then p else 0) - v.offset % p = _
  change 0 ≤ v.offset % p ∧ _ at hlo
  rw [wholeStart]
  split_ifs <;> omega

theorem stop_eq (h : Request p boff tb [v]) :
    (dioTbuf p v.offset (v.offset + v.len - 1) v.len boff tb).stop = wholeEnd p boff v := by
  have hsucc := succ_emod h.page (v.offset + v.len - 1)
  rw [show v.offset + v.len - 1 + 1 = v.offset + v.len by omega] at hsucc
  change (if p - (v.offset + v.len - 1) % p - 1 = 0 then boff + v.len
    else boff + (pageStart p (v.offset + v.len - 1) - pageStart p v.offset) - v.offset % p) = _
  rw [wholeEnd, hsucc, pageStart_eq, pageStart_eq]
  split_ifs <;> omega

variable {room stop : Int} {b : Int}

section

variable (htot : tb.totalBytes = Toolbox.totalLen tb.iov) (hfits : tb.totalBytes ≤ 2147483648)
include htot hfits

/-- As long as no block starts behind `len + 1`, exactly the bytes up to `stop` are asked for. -/
theorem cutEnd_whole (hstop : stop ≤ tb.totalBytes) (hlen : len + 1 ≤ stop) (fuel : Nat)
    (h0 : 0 ≤ b) (hb : b ≤ stop) (hfuel : (stop - b).toNat ≤ fuel) (hstart : b ≤ len + 1)
    (hpieces : ∀ a ∈ starts 0 tb.iov, b ≤ a → a < stop → a ≤ len + 1) :
    cutEnd tb len stop stop fuel b = some stop := by
  induction fuel generalizing b with
  | zero => rw [cutEnd, if_pos (by omega), show b = stop by omega]
  | succ fuel ih =>
    rw [cutEnd]
    split_ifs with hdone
    · rw [show b = stop by omega]
    have hask : askFor len b (stop - b) = stop - b := by
      have hsize : (sizeValues : Int) = 18446744073709551616 := rfl
      rw [askFor, Int.emod_eq_of_lt (by omega) (by omega), max_eq_right (by omega)]
    obtain ⟨m, hblock, hone, hle, hcut⟩ :=
      tbufBlock_inside htot hfits h0 (show 1 ≤ stop - b by omega) (by omega)
    rw [hask, hblock, Option.bind_some]
    change cutEnd tb len stop stop fuel (b + m) = some stop
    by_cases hall : m < stop - b
    · obtain ⟨a, ha, heq⟩ := hcut hall
      have hnext := hpieces a ha (by omega) (by omega)
      exact ih (by omega) (by omega) (by omega) (by omega)
        fun a ha hle => hpieces a ha (by omega)
    · rw [show b + m = stop by omega]
      cases fuel <;> rw [cutEnd, if_pos le_rfl]

/-- In the last piece of the buffer one block goes to its end. -/
theorem cutEnd_last (hstop : stop ≤ tb.totalBytes) (hroom : (tb.totalBytes : Int) ≤ room)
    (h0 : 0 ≤ b) (hb : b < stop) {fuel : Nat} (hfuel : 1 ≤ fuel)
    (hsize : b = 0 → 0 ≤ len ∧ len + 1 < sizeValues ∧ room < sizeValues)
    (hpiece : ∀ a ∈ starts 0 tb.iov, a = 0 ∨ a < b) :
    cutEnd tb len room stop fuel b = some tb.totalBytes := by
  obtain ⟨fuel, rfl⟩ : ∃ k, fuel = k + 1 := ⟨fuel - 1, by omega⟩
  have hall : (tb.totalBytes : Int) ≤ b + askFor len b (room - b) := by
    rw [askFor]
    omega
  have hask (hzero : b = 0) : askFor len b (room - b) < sizeValues := by
    obtain ⟨hlen, hlt, hlt'⟩ := hsize hzero
    rw [askFor, Int.emod_eq_of_lt (by omega) (by omega)]
    omega
  rw [cutEnd, if_neg (by omega), tbufBlock_last htot hfits h0 (by omega) hpiece hall hask,
    Option.bind_some]
  change cutEnd tb len room stop fuel (b + (tb.totalBytes - b)) = some ↑tb.totalBytes
  rw [show b + (tb.totalBytes - b) = tb.totalBytes by omega]
  cases fuel <;> rw [cutEnd, if_pos hstop]

end

theorem hiExtra_eq_zero (h : Request p boff tb [v]) (hend : (v.offset + v.len) % p = 0) :
    (dioTbuf p v.offset (v.offset + v.len - 1) v.len boff tb).hiExtra = 0 := by
  have hsucc := succ_emod h.page (v.offset + v.len - 1)
  have hnonneg := Int.emod_nonneg (v.offset + v.len - 1) (show p ≠ 0 by have := h.page; omega)
  rw [show v.offset + v.len - 1 + 1 = v.offset + v.len by omega, hend] at hsucc
  change p - (v.offset + v.len - 1) % p - 1 = 0
  split_ifs at hsucc <;> omega

/-- The blocks of the caller's buffer that a transfer uses stay inside the range, and a read
does not use those of a partial last page. -/
theorem Serves.reach_le (hreq : Request p boff tb [v]) (h : Serves p mode boff tb v) :
    ∃ e, (dioTbuf p v.offset (v.offset + v.len - 1) v.len boff tb).reach = some e ∧
      e ≤ boff + v.len ∧
      (mode = .read → e ≤ (dioTbuf p v.offset (v.offset + v.len - 1) v.len boff tb).stop) := by
  have hok := hreq.ok
  have hextra := hiExtra_eq_zero hreq
  have hfirst := first_eq hreq
  have hstop := stop_eq hreq
  have htb : (dioTbuf p v.offset (v.offset + v.len - 1) v.len boff tb).tbuf = tb := rfl
  have hblen : (dioTbuf p v.offset (v.offset + v.len - 1) v.len boff tb).blen = v.len := rfl
  have hbpos : (dioTbuf p v.offset (v.offset + v.len - 1) v.len boff tb).tbufBpos = boff := rfl
  have hpage : (dioTbuf p v.offset (v.offset + v.len - 1) v.len boff tb).pageSize = p := rfl
  generalize dioTbuf p v.offset (v.offset + v.len - 1) v.len boff tb = d at *
  subst htb
  have hle := hok.stop_le
  by_cases honly : d.LoOnly
  · exact ⟨d.stop, if_pos honly, by omega, fun _ => le_rfl⟩
  have hbelow := hok.first_le_stop honly
  have hc1 := hok.loExtra_le_c1
  have hboff := hok.bpos
  have hfirst_ge : d.tbufBpos ≤ d.first := by
    rw [DioTbuf.first]
    omega
  have hlen := hok.len
  have hroom := hok.room
  have hfits := hok.bytes
  rw [DioTbuf.reach, if_neg honly]
  by_cases hnone : d.stop ≤ d.first
  · refine ⟨d.first, ?_, by omega, fun _ => hbelow⟩
    cases d.blen.toNat <;> rw [cutEnd, if_pos hnone]
  cases h with
  | partialPages hpages => omega
  | wholeLast hend hboff hstart hpieces =>
    have hstop' : d.stop = boff + v.len := by rw [hstop, wholeEnd, hend, sub_zero]
    refine ⟨d.stop, ?_, by omega, fun _ => le_rfl⟩
    rw [hextra hend, add_zero, hblen, hbpos, ← hstop']
    refine cutEnd_whole hok.total hok.bytes (by omega) (by omega) _ (by omega) hbelow (by omega)
      (by omega) fun a ha hle hlt => hpieces a ha (by omega) (by omega)
  | lastPiece hmode hend hpiece =>
    have hhi := hok.hi
    refine ⟨d.tbuf.totalBytes, ?_, by omega, fun hread => ?_⟩
    · refine cutEnd_last hok.total hok.bytes (by omega) (by omega) (by omega) (by omega) (by omega)
        (fun _ => ?_) (hfirst ▸ hpiece)
      have hpages := hreq.pageFits
      have hsize : (sizeValues : Int) = 18446744073709551616 := rfl
      omega
    · rcases hmode with hwrite | hzero
      · exact absurd (hread.symm.trans hwrite) (by decide)
      · rw [hstop, wholeEnd, hzero]
        omega

theorem isFlat_single (hreq : Request p boff tb [v]) (h : Serves p mode boff tb v) :
    IsFlat p mode boff tb [v] := by
  intro frames s
  have hok := hreq.ok
  obtain ⟨hoff, hlen⟩ := hreq.ranges v (by simp)
  obtain ⟨e, hreach, hle, hread⟩ := h.reach_le hreq
  have hone : cacheDirectRwFunc p mode boff tb [v] frames s =
      cacheDirectRwOp p mode v.offset (v.offset + v.len - 1) v.len boff tb (frames 0) s := by
    simp [cacheDirectRwFunc]
  rw [hone]
  cases mode with
  | read =>
    rw [directRead_eq hok, hreach, Option.map_some, Option.map_some]
    dsimp only [DioTbuf.readResult]
    rw [copyBytes_empty (frames 0 .hiBuf) _ _ _ (by have := hread rfl; omega)]
    change some (copyBytes s.child v.offset s.user boff (max v.len (e - boff)), _) = _
    rw [max_eq_left (by omega)]
    rfl
  | write =>
    obtain ⟨size, hrun⟩ := directWrite_eq hreq.page hoff hlen hok (frames 0) s
    rw [hrun, hreach, Option.map_some, Option.map_some, max_eq_left (by omega)]
    rfl

end LStore.Cache.DirectIo
