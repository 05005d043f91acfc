import LStore.Base.ByteSpan
import LStore.Base.MachineInt
import Mathlib.Algebra.Order.Ring.Int

/-!
# Transfer buffers

`src/toolbox/transfer_buffer.c` presents a vector of memory pieces as one buffer.
`tb_next_block` returns the memory behind a position, as many whole pieces of the
request as it can, and remembers the slot it found for the next call.

## Implementation notes

A piece is a base address with a length, so `iov_base` is never null here. The
scratch element `priv.single` is the element returned. The offset into a piece and the
bytes before the cached slot are kept in an `int`; positions and lengths are unbounded, but
for the two ends of a request, which `tbNextBlockWith` converts as its parameter says.
-/

namespace LStore.Toolbox

open ByteSpan List MachineInt

/-- `tbx_iovec_t`. -/
structure Iovec where
  iovBase : Int
  iovLen : Nat
deriving DecidableEq, Repr

/-- `tbx_tbuf_info_t`. -/
structure Tbuf where
  totalBytes : Nat
  iov : List Iovec
deriving DecidableEq, Repr

/-- `tbx_tbuf_var_t`: the size of a block, its pieces, and the cached slot with the
bytes before it. -/
structure TbufVar where
  nbytes : Nat
  buffer : List Iovec
  currSlot : Nat
  slotTotalPos : Int
deriving DecidableEq, Repr

/-- `tbx_tbuf_var_init`. -/
def TbufVar.init : TbufVar := ⟨0, [], 0, 0⟩

/-- The scan for the slot that holds byte `pos`, from slot `i` with `sum` bytes
before it. Without such a slot only the sum has moved. -/
def findSlot (pos : Nat) : List Iovec → Nat → Nat → Option Nat × Nat
  | [], _, sum => (none, sum)
  | v :: vs, i, sum =>
    if pos < sum + v.iovLen then (some i, sum) else findSlot pos vs (i + 1) (sum + v.iovLen)

/-- The block at a slot boundary of a request that ends before `ds`, its last byte at
`endpos`, with the pieces from `slot` on. -/
def boundaryBlock (tb : Tbuf) (ds endpos slot sum nbytes : Nat) : List Iovec → Option TbufVar
  | [] => none
  | v :: vs =>
    if tb.totalBytes ≤ ds then
      some ⟨if tb.totalBytes < nbytes then tb.totalBytes - sum else nbytes, v :: vs, slot, i32 sum⟩
    else
      let (found, upto) := findSlot endpos (v :: vs) slot sum
      let last := found.getD slot
      if last = slot then
        some ⟨nbytes, [{ v with iovLen := nbytes }], slot, i32 sum⟩
      else
        some ⟨upto - sum, (v :: vs).take (last - slot), slot, i32 sum⟩

/-- The block in the middle of a slot, `i` bytes into it. -/
def middleBlock (i : Int) (slot sum nbytes : Nat) : List Iovec → Option TbufVar
  | [] => none
  | v :: _ =>
    let len := min (sizeT (v.iovLen - i)) nbytes
    some ⟨len, [⟨v.iovBase + i, len⟩], slot, i32 sum⟩

/-- The slot of byte `pos` with the bytes before it, looked for from the cached slot on. -/
def cachedSlot (tb : Tbuf) (pos : Nat) (tbv : TbufVar) : Nat × Nat :=
  let (start, before) :=
    if pos < sizeT tbv.slotTotalPos then (0, 0) else (tbv.currSlot, sizeT tbv.slotTotalPos)
  let (found, sum) := findSlot pos (tb.iov.drop start) start before
  (found.getD start, sum)

/-- `tb_next_block`, with a conversion of the ends of the request; `none` is
`TBUFFER_OUTOFSPACE`. -/
def tbNextBlockWith (size : Nat → Nat) (tb : Tbuf) (pos : Nat) (tbv : TbufVar) : Option TbufVar :=
  if tb.totalBytes ≤ pos then none
  else
    let (slot, sum) := cachedSlot tb pos tbv
    let i := i32 (pos - sum : Nat)
    if i = 0 then
      boundaryBlock tb (size (pos + tbv.nbytes)) (size (pos + tbv.nbytes - 1)) slot sum tbv.nbytes
        (tb.iov.drop slot)
    else middleBlock i slot sum tbv.nbytes (tb.iov.drop slot)

/-- `tb_next_block` of a request that ends where a `size_t` can say. -/
def tbNextBlock (tb : Tbuf) (pos : Nat) (tbv : TbufVar) : Option TbufVar :=
  tbNextBlockWith id tb pos tbv

/-- The addresses of the bytes of pieces, in buffer order. -/
def addresses (vs : List Iovec) : List Int :=
  positions (vs.map fun v => (v.iovBase, (v.iovLen : Int)))

/-- The bytes of pieces. -/
def totalLen (vs : List Iovec) : Nat := (vs.map Iovec.iovLen).sum

/-- Where pieces start, the first one at `base`. -/
def starts (base : Nat) : List Iovec → List Nat
  | [] => []
  | v :: vs => base :: starts (base + v.iovLen) vs

@[simp] theorem addresses_append (vs ws : List Iovec) :
    addresses (vs ++ ws) = addresses vs ++ addresses ws := by
  simp [addresses]

@[simp] theorem addresses_cons (v : Iovec) (vs : List Iovec) :
    addresses (v :: vs) = span v.iovBase (v.iovBase + v.iovLen) ++ addresses vs := by
  simp [addresses]

@[simp] theorem addresses_nil : addresses [] = [] := rfl

@[simp] theorem totalLen_nil : totalLen [] = 0 := rfl

@[simp] theorem totalLen_cons (v : Iovec) (vs : List Iovec) :
    totalLen (v :: vs) = v.iovLen + totalLen vs := by
  simp [totalLen]

@[simp] theorem totalLen_append (vs ws : List Iovec) :
    totalLen (vs ++ ws) = totalLen vs + totalLen ws := by
  simp [totalLen]

@[simp] theorem length_addresses (vs : List Iovec) : (addresses vs).length = totalLen vs := by
  induction vs with
  | nil => rfl
  | cons v vs ih =>
    rw [addresses_cons, length_append, length_span, ih, totalLen_cons]
    omega

/-- The scan stops in front of the piece that holds the byte. -/
theorem findSlot_spec (pos : Nat) (vs : List Iovec) (i sum : Nat) (hle : sum ≤ pos)
    (hlt : pos < sum + totalLen vs) :
    ∃ pre v post, vs = pre ++ v :: post ∧
      findSlot pos vs i sum = (some (i + pre.length), sum + totalLen pre) ∧
      sum + totalLen pre ≤ pos ∧ pos < sum + totalLen pre + v.iovLen := by
  induction vs generalizing i sum with
  | nil => simp at hlt; omega
  | cons v vs ih =>
    by_cases hhere : pos < sum + v.iovLen
    · exact ⟨[], v, vs, rfl, by simp [findSlot, hhere], hle, hhere⟩
    · rw [totalLen_cons] at hlt
      obtain ⟨pre, w, post, rfl, hrun, hbefore, hin⟩ :=
        ih (i + 1) (sum + v.iovLen) (by omega) (by omega)
      refine ⟨v :: pre, w, post, rfl, ?_, ?_, ?_⟩
      · rw [findSlot, if_neg hhere, hrun, length_cons, totalLen_cons]
        congr 1
        · congr 1
          omega
        · omega
      · rw [totalLen_cons]
        omega
      · rw [totalLen_cons]
        omega

/-- The cached slot with the number of bytes before it. -/
structure TbufVar.Valid (tb : Tbuf) (tbv : TbufVar) : Prop where
  slot : tbv.currSlot ≤ tb.iov.length
  sum : sizeT tbv.slotTotalPos = totalLen (tb.iov.take tbv.currSlot)

theorem TbufVar.valid_init (tb : Tbuf) : TbufVar.init.Valid tb :=
  ⟨Nat.zero_le _, rfl⟩

/-- The search finds the piece of the byte from any valid cache. -/
theorem cachedSlot_spec {tb pos tbv} (htot : tb.totalBytes = totalLen tb.iov) (hv : tbv.Valid tb)
    (hpos : pos < tb.totalBytes) :
    ∃ pre v post, tb.iov = pre ++ v :: post ∧ totalLen pre ≤ pos ∧
      pos < totalLen pre + v.iovLen ∧ cachedSlot tb pos tbv = (pre.length, totalLen pre) := by
  obtain ⟨start, before, hstart, hcache, hle, hbefore⟩ : ∃ start before,
      start ≤ tb.iov.length ∧
      (if pos < sizeT tbv.slotTotalPos then (0, 0) else (tbv.currSlot, sizeT tbv.slotTotalPos)) =
        (start, before) ∧
      before ≤ pos ∧ before = totalLen (tb.iov.take start) := by
    by_cases hback : pos < sizeT tbv.slotTotalPos
    · exact ⟨0, 0, Nat.zero_le _, if_pos hback, Nat.zero_le _, rfl⟩
    · exact ⟨tbv.currSlot, sizeT tbv.slotTotalPos, hv.slot, if_neg hback, by omega, hv.sum⟩
  have hsplit : totalLen (tb.iov.take start) + totalLen (tb.iov.drop start) = totalLen tb.iov := by
    rw [← totalLen_append, take_append_drop]
  obtain ⟨pre, v, post, hdrop, hrun, hbelow, habove⟩ :=
    findSlot_spec pos (tb.iov.drop start) start before hle (by omega)
  have hiov : tb.iov = (tb.iov.take start ++ pre) ++ v :: post := by
    rw [append_assoc, ← hdrop, take_append_drop]
  have hlen : (tb.iov.take start ++ pre).length = start + pre.length := by
    rw [length_append, length_take]
    omega
  have hsum : totalLen (tb.iov.take start ++ pre) = before + totalLen pre := by
    rw [totalLen_append, hbefore]
  refine ⟨tb.iov.take start ++ pre, v, post, hiov, by omega, by omega, ?_⟩
  simp [cachedSlot, hcache, hrun, hlen, hsum]

theorem tbNextBlockWith_of_slot (size : Nat → Nat) {tb pos tbv slot sum}
    (hpos : ¬tb.totalBytes ≤ pos) (hslot : cachedSlot tb pos tbv = (slot, sum)) :
    tbNextBlockWith size tb pos tbv =
      if i32 (pos - sum : Nat) = 0 then
        boundaryBlock tb (size (pos + tbv.nbytes)) (size (pos + tbv.nbytes - 1)) slot sum tbv.nbytes
          (tb.iov.drop slot)
      else middleBlock (i32 (pos - sum : Nat)) slot sum tbv.nbytes (tb.iov.drop slot) := by
  rw [tbNextBlockWith, if_neg hpos, hslot]

/-- Where the search of `tb_next_block` ends up, from any valid cache. -/
theorem locate (size : Nat → Nat) {tb pos tbv} (htot : tb.totalBytes = totalLen tb.iov)
    (hfits : tb.totalBytes ≤ 2147483648) (hv : tbv.Valid tb) (hpos : pos < tb.totalBytes) :
    ∃ pre v post, tb.iov = pre ++ v :: post ∧ totalLen pre ≤ pos ∧
      pos < totalLen pre + v.iovLen ∧ tb.totalBytes = totalLen pre + totalLen (v :: post) ∧
      tbNextBlockWith size tb pos tbv =
        if pos - totalLen pre = 0 then
          boundaryBlock tb (size (pos + tbv.nbytes)) (size (pos + tbv.nbytes - 1)) pre.length
            (totalLen pre) tbv.nbytes (v :: post)
        else
          middleBlock (pos - totalLen pre : Nat) pre.length (totalLen pre) tbv.nbytes
            (v :: post) := by
  obtain ⟨pre, v, post, hiov, hle, hlt, hslot⟩ := cachedSlot_spec htot hv hpos
  have hdrop : tb.iov.drop pre.length = v :: post := by
    rw [hiov, drop_left]
  refine ⟨pre, v, post, hiov, hle, hlt, by rw [htot, hiov, totalLen_append], ?_⟩
  rw [tbNextBlockWith_of_slot size (by omega) hslot, hdrop, i32_natCast (by omega)]
  simp only [Int.natCast_eq_zero]

variable {tb : Tbuf} {pos nbytes : Nat} {pre post : List Iovec} {v : Iovec}

section

variable (hiov : tb.iov = pre ++ v :: post)
include hiov

theorem valid_at (hpre : totalLen pre < 2147483648) (n : Nat) (vs : List Iovec) :
    TbufVar.Valid tb ⟨n, vs, pre.length, i32 (totalLen pre)⟩ := by
  refine ⟨?_, ?_⟩
  · rw [hiov, length_append]
    exact Nat.le_add_right _ _
  · change sizeT (i32 (totalLen pre)) = totalLen (tb.iov.take pre.length)
    rw [hiov, take_left, sizeT_i32 hpre]

theorem drop_addresses (hle : totalLen pre ≤ pos) (hlt : pos < totalLen pre + v.iovLen) :
    (addresses tb.iov).drop pos =
      span (v.iovBase + (pos - totalLen pre : Nat)) (v.iovBase + v.iovLen) ++ addresses post := by
  have hskip : (addresses tb.iov).drop pos =
      ((addresses tb.iov).drop (addresses pre).length).drop (pos - totalLen pre) := by
    rw [drop_drop, length_addresses]
    congr 1
    omega
  rw [hskip, hiov, addresses_append, drop_left, addresses_cons,
    drop_append_of_le_length (by rw [length_span]; omega), drop_span _ (by omega)]

/-- Whole pieces from a slot boundary on. -/
theorem addresses_pieces (hpos : pos = totalLen pre) {whole rest}
    (hsplit : v :: post = whole ++ rest) :
    addresses ((v :: post).take whole.length) =
      ((addresses tb.iov).drop pos).take (totalLen whole) := by
  rw [hpos, ← length_addresses, ← length_addresses, hiov, addresses_append, drop_left, hsplit,
    take_left, addresses_append, take_left]

end

theorem mem_starts (base : Nat) (pre : List Iovec) (v : Iovec) (post : List Iovec) :
    base + totalLen pre ∈ starts base (pre ++ v :: post) := by
  induction pre generalizing base with
  | nil => exact mem_cons_self
  | cons w pre ih =>
    rw [totalLen_cons, ← Nat.add_assoc]
    exact mem_cons_of_mem _ (ih (base + w.iovLen))

theorem mem_starts_of_rest (whole : List Iovec) {rest : List Iovec}
    (hiov : tb.iov = pre ++ (whole ++ rest)) (hrest : rest ≠ []) :
    totalLen pre + totalLen whole ∈ starts 0 tb.iov := by
  obtain ⟨w, rest, rfl⟩ := exists_cons_of_ne_nil hrest
  have hmem := mem_starts 0 (pre ++ whole) w rest
  rwa [Nat.zero_add, totalLen_append, append_assoc, ← hiov] at hmem

theorem findSlot_beyond (vs : List Iovec) (i sum : Nat) (h : sum + totalLen vs ≤ pos) :
    (findSlot pos vs i sum).1 = none := by
  induction vs generalizing i sum with
  | nil => rfl
  | cons v vs ih =>
    rw [totalLen_cons] at h
    rw [findSlot, if_neg (by omega)]
    exact ih (i + 1) (sum + v.iovLen) (by omega)

/-- The three blocks at a slot boundary: the rest of the buffer, a part of the piece, or
whole pieces. -/
theorem boundaryBlock_cases (tb : Tbuf) (ds endpos nbytes : Nat) (pre post : List Iovec)
    (v : Iovec) :
    ∃ n vs, boundaryBlock tb ds endpos pre.length (totalLen pre) nbytes (v :: post) =
        some ⟨n, vs, pre.length, i32 (totalLen pre)⟩ ∧
      ((tb.totalBytes ≤ ds ∧ vs = v :: post ∧
          n = if tb.totalBytes < nbytes then tb.totalBytes - totalLen pre else nbytes) ∨
        (vs = [{ v with iovLen := nbytes }] ∧ n = nbytes ∧
          (endpos < totalLen pre + v.iovLen ∨ totalLen pre + totalLen (v :: post) ≤ endpos)) ∨
        ∃ whole rest, v :: post = (v :: whole) ++ rest ∧
          vs = (v :: post).take (v :: whole).length ∧ n = totalLen (v :: whole) ∧
          totalLen pre + n ≤ endpos ∧ endpos < totalLen pre + totalLen (v :: post)) := by
  rw [boundaryBlock]
  by_cases hrest : tb.totalBytes ≤ ds
  · rw [if_pos hrest]
    exact ⟨_, _, rfl, .inl ⟨hrest, rfl, rfl⟩⟩
  rw [if_neg hrest]
  by_cases hhere : endpos < totalLen pre + v.iovLen
  · have hrun : findSlot endpos (v :: post) pre.length (totalLen pre) =
        (some pre.length, totalLen pre) := if_pos hhere
    simp only [hrun, Option.getD_some, if_true]
    exact ⟨_, _, rfl, .inr (.inl ⟨rfl, rfl, .inl hhere⟩)⟩
  by_cases hin : endpos < totalLen pre + totalLen (v :: post)
  · obtain ⟨whole, w, rest, hsplit, hrun, hbelow, habove⟩ :=
      findSlot_spec endpos (v :: post) pre.length (totalLen pre) (by omega) hin
    cases whole with
    | nil =>
      obtain ⟨rfl, rfl⟩ := List.cons.inj hsplit
      simp only [totalLen_nil] at habove
      omega
    | cons v' whole =>
      obtain ⟨rfl, -⟩ := List.cons.inj hsplit
      simp only [hrun, Option.getD_some]
      rw [if_neg (by simp), Nat.add_sub_cancel_left, Nat.add_sub_cancel_left]
      exact ⟨_, _, rfl, .inr (.inr ⟨whole, w :: rest, hsplit, rfl, rfl, hbelow, hin⟩)⟩
  · have hrun := findSlot_beyond (v :: post) pre.length (totalLen pre) (Nat.le_of_not_lt hin)
    simp only [hrun, Option.getD_none, if_true]
    exact ⟨_, _, rfl, .inr (.inl ⟨rfl, rfl, .inr (Nat.le_of_not_lt hin)⟩)⟩

/-- A block for a request: if its bytes are bytes of the buffer, its pieces are those behind
the position, and for a request that lies in the buffer it is all of it, or it ends where a
piece starts. -/
structure NextBlock (tb : Tbuf) (pos nbytes : Nat) (tbv : TbufVar) : Prop where
  valid : tbv.Valid tb
  some_bytes : 1 ≤ tbv.nbytes
  bytes : pos + tbv.nbytes ≤ tb.totalBytes →
    addresses tbv.buffer = ((addresses tb.iov).drop pos).take tbv.nbytes
  le : pos + nbytes ≤ tb.totalBytes → tbv.nbytes ≤ nbytes
  cut : pos + nbytes ≤ tb.totalBytes → tbv.nbytes < nbytes → pos + tbv.nbytes ∈ starts 0 tb.iov

theorem nextBlock_boundary (htotal : tb.totalBytes = totalLen pre + totalLen (v :: post))
    (hiov : tb.iov = pre ++ v :: post) (hpos : pos = totalLen pre) (hv : 0 < v.iovLen)
    (hn : 1 ≤ nbytes) (hpre : totalLen pre < 2147483648) {ds endpos : Nat} (hds : ds ≤ pos + nbytes)
    (hend : pos + nbytes ≤ tb.totalBytes → endpos = pos + nbytes - 1) :
    ∃ tbv, boundaryBlock tb ds endpos pre.length (totalLen pre) nbytes (v :: post) = some tbv ∧
      NextBlock tb pos nbytes tbv := by
  obtain ⟨n, vs, hrun, hcases⟩ := boundaryBlock_cases tb ds endpos nbytes pre post v
  refine ⟨_, hrun, ?_⟩
  rcases hcases with ⟨hrest, rfl, rfl⟩ | ⟨rfl, rfl, hpart⟩ | ⟨whole, rest, hsplit, rfl, rfl, hle, -⟩
  · have hall := addresses_pieces hiov hpos (append_nil (v :: post)).symm
    rw [take_length] at hall
    rw [totalLen_cons] at htotal
    refine ⟨valid_at hiov hpre _ _, ?_, fun hin => ?_, fun hin => ?_, fun hin hlt => ?_⟩
    · dsimp only
      split <;> omega
    · dsimp only at hin ⊢
      rw [hall, totalLen_cons]
      congr 1
      split at hin <;> split <;> omega
    · exact le_of_eq (if_neg (by omega))
    · rw [if_neg (by omega)] at hlt
      exact absurd hlt (lt_irrefl _)
  · refine ⟨valid_at hiov hpre _ _, hn, fun hin => ?_, fun _ => le_rfl,
      fun _ hlt => absurd hlt (lt_irrefl _)⟩
    dsimp only at hin
    have hstop := hend hin
    rw [drop_addresses hiov (le_of_eq hpos.symm) (by omega), hpos, Nat.sub_self]
    simp only [addresses_cons, addresses_nil, append_nil, Int.ofNat_zero, Int.add_zero]
    rw [take_append_of_le_length (by rw [length_span]; omega), take_span _ (by omega)]
  · refine ⟨valid_at hiov hpre _ _, ?_, fun _ => addresses_pieces hiov hpos hsplit,
      fun hin => ?_, fun hin _ => ?_⟩
    · change 1 ≤ totalLen (v :: whole)
      rw [totalLen_cons]
      omega
    · have hstop := hend hin
      dsimp only
      omega
    · rw [hpos]
      refine mem_starts_of_rest (v :: whole) (hsplit ▸ hiov) fun hnil => ?_
      have hstop := hend hin
      have hsum := congrArg totalLen hsplit
      rw [totalLen_append, hnil, totalLen_nil] at hsum
      omega

theorem nextBlock_middle (htotal : tb.totalBytes = totalLen pre + totalLen (v :: post))
    (hiov : tb.iov = pre ++ v :: post) (hlt : totalLen pre < pos)
    (hin : pos < totalLen pre + v.iovLen) (hn : 1 ≤ nbytes)
    (hfits : totalLen pre + v.iovLen ≤ 2147483648) :
    ∃ tbv, middleBlock (pos - totalLen pre : Nat) pre.length (totalLen pre) nbytes (v :: post) =
        some tbv ∧ NextBlock tb pos nbytes tbv := by
  rw [middleBlock, sizeT_sub (by omega) (by omega)]
  rw [totalLen_cons] at htotal
  refine ⟨_, rfl, valid_at hiov (by omega) _ _, ?_, fun _ => ?_, fun _ => min_le_right _ _,
    fun hall hshort => ?_⟩
  · change 1 ≤ min _ _
    omega
  · change addresses [_] = List.take (min _ _) _
    rw [drop_addresses hiov (le_of_lt hlt) hin, addresses_cons, addresses_nil, append_nil,
      take_append_of_le_length (by rw [length_span]; omega), take_span _ (by omega)]
  · dsimp only at hshort ⊢
    have hmem := mem_starts_of_rest [v] hiov fun hnil => by
      rw [hnil, totalLen_nil] at htotal
      omega
    rw [totalLen_cons, totalLen_nil] at hmem
    rwa [show pos + min (v.iovLen - (pos - totalLen pre)) nbytes = totalLen pre + (v.iovLen + 0)
      by omega]

/-- Inside the buffer there is always a block, also where the end of the request wraps
around. -/
theorem tbNextBlockWith_spec (size : Nat → Nat) (hle : ∀ x, size x ≤ x)
    (hid : ∀ x ≤ tb.totalBytes, size x = x) {tbv : TbufVar}
    (htot : tb.totalBytes = totalLen tb.iov) (hfits : tb.totalBytes ≤ 2147483648)
    (hv : tbv.Valid tb) (hn : 1 ≤ tbv.nbytes) (hpos : pos < tb.totalBytes) :
    ∃ tbv', tbNextBlockWith size tb pos tbv = some tbv' ∧ NextBlock tb pos tbv.nbytes tbv' := by
  obtain ⟨pre, v, post, hiov, hbelow, hlt, htotal, hrun⟩ := locate size htot hfits hv hpos
  have hlen := totalLen_cons v post
  rw [hrun]
  split_ifs with hedge
  · exact nextBlock_boundary htotal hiov (by omega) (by omega) hn (by omega) (hle _)
      fun hin => hid _ (by omega)
  · exact nextBlock_middle htotal hiov (by omega) hlt hn (by omega)

/-- A block of a request that lies in the buffer: some of the requested bytes, at
their addresses. -/
structure IsBlock (tb : Tbuf) (pos nbytes : Nat) (tbv : TbufVar) : Prop where
  valid : tbv.Valid tb
  some_bytes : 1 ≤ tbv.nbytes
  le : tbv.nbytes ≤ nbytes
  bytes : addresses tbv.buffer = ((addresses tb.iov).drop pos).take tbv.nbytes

/-- A request inside the buffer gets a block of it. -/
theorem tbNextBlock_spec (tbv : TbufVar) (htot : tb.totalBytes = totalLen tb.iov)
    (hv : tbv.Valid tb) (hn : 1 ≤ tbv.nbytes) (hin : pos + tbv.nbytes ≤ tb.totalBytes)
    (hfits : tb.totalBytes ≤ 2147483648) :
    ∃ tbv', tbNextBlock tb pos tbv = some tbv' ∧ IsBlock tb pos tbv.nbytes tbv' := by
  obtain ⟨tbv', hrun, hblock⟩ := tbNextBlockWith_spec id (fun _ => le_rfl)
    (fun _ _ => rfl) htot hfits hv hn (show pos < tb.totalBytes by omega)
  have hle := hblock.le hin
  exact ⟨tbv', hrun, hblock.valid, hblock.some_bytes, hle, hblock.bytes (by omega)⟩

end LStore.Toolbox
