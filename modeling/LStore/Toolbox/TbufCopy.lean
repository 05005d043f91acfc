import LStore.Toolbox.TransferBuffer

/-!
# Copies between transfer buffers

`tbx_tbuf_copy` asks both buffers for the block at its positions and goes through the pieces
of the two blocks side by side, with one `memcpy` for each stretch that lies in one piece of
either block.

## Implementation notes

The buffers may lie in different regions of memory: `src` and `dst` say where an address of
either leads. A piece is kept as what is left of it, where the code has an index, an offset
and a length. A walk past the pieces of a block has no result, nor has a copy that goes on
without getting any further.
-/

namespace LStore.Toolbox

open ByteSpan List MachineInt

variable {ι β : Type*} [DecidableEq ι]

/-- The variables of `tbx_tbuf_copy`, with the memory. -/
structure CopyState (ι β : Type*) where
  spos : Nat
  dpos : Nat
  nleft : Nat
  stv : TbufVar
  dtv : TbufVar
  mem : ι → β

/-- The bytes at some addresses go to others, in order. -/
def copyAll (src dst : Int → ι) (xs ys : List Int) (mem : ι → β) : ι → β :=
  writeAll ((xs.zip ys).map fun p => (dst p.2, mem (src p.1))) mem

/-- What is left of the pieces when `len` bytes of the first one are done. -/
def advance (len : Nat) : List Iovec → List Iovec
  | [] => []
  | v :: vs => if v.iovLen ≤ len then vs else ⟨v.iovBase + len, v.iovLen - len⟩ :: vs

theorem length_advance_le (len : Nat) (vs : List Iovec) : (advance len vs).length ≤ vs.length := by
  cases vs with
  | nil => exact le_rfl
  | cons v vs =>
    rw [advance]
    split <;> simp

theorem length_advance_lt {len : Nat} {v : Iovec} (h : v.iovLen ≤ len) (vs : List Iovec) :
    (advance len (v :: vs)).length < (v :: vs).length := by
  rw [advance, if_pos h]
  exact Nat.lt_succ_self _

/-- The loop through the pieces of two blocks, `n` bytes of which are left. -/
def copyPieces (src dst : Int → ι) (n : Int) (sbuf dbuf : List Iovec) (st : CopyState ι β) :
    Option (CopyState ι β) :=
  if n ≤ 0 then some st
  else
    match sbuf, dbuf with
    | s :: ss, d :: ds =>
      let len := min s.iovLen d.iovLen
      copyPieces src dst (i32 (n - len)) (advance len (s :: ss)) (advance len (d :: ds))
        { st with
          spos := st.spos + len
          dpos := st.dpos + len
          nleft := sizeT (st.nleft - len)
          mem := copyAll src dst (span s.iovBase (s.iovBase + len))
            (span d.iovBase (d.iovBase + len)) st.mem }
    | _, _ => none
termination_by sbuf.length + dbuf.length
decreasing_by
  rcases le_total s.iovLen d.iovLen with h | h
  · exact Nat.add_lt_add_of_lt_of_le (length_advance_lt (le_min le_rfl h) ss)
      (length_advance_le _ _)
  · exact Nat.add_lt_add_of_le_of_lt (length_advance_le _ _)
      (length_advance_lt (le_min h le_rfl) ds)

/-- The loop over the blocks of both buffers. -/
def copyBlocks (src dst : Int → ι) (tbS tbD : Tbuf) : Nat → CopyState ι β → Option (CopyState ι β)
  | 0, st => if st.nleft = 0 then some st else none
  | fuel + 1, st =>
    if st.nleft = 0 then some st
    else
      match tbNextBlock tbS st.spos { st.stv with nbytes := st.nleft } with
      | none => some st
      | some stv =>
        match tbNextBlock tbD st.dpos { st.dtv with nbytes := st.nleft } with
        | none => some { st with stv := stv }
        | some dtv =>
          (copyPieces src dst (i32 (min stv.nbytes dtv.nbytes : Nat)) stv.buffer dtv.buffer
            { st with stv := stv, dtv := dtv }).bind (copyBlocks src dst tbS tbD fuel)

/-- `tbx_tbuf_copy`. -/
def tbxTbufCopy (src dst : Int → ι) (tbS : Tbuf) (offS : Nat) (tbD : Tbuf) (offD nbytes : Nat)
    (mem : ι → β) : Option (ι → β) :=
  (copyBlocks src dst tbS tbD nbytes
    ⟨offS, offD, nbytes, TbufVar.init, TbufVar.init, mem⟩).map CopyState.mem

/-- `tbx_tbuf_single`, with the buffer at `base`. -/
def tbxTbufSingle (nbytes : Nat) (base : Int) : Tbuf := ⟨nbytes, [⟨base, nbytes⟩]⟩

section

variable {src dst : Int → ι} {n : Int} {len : Nat} {s d : Iovec} {ss ds : List Iovec}

theorem copyPieces_done (h : n ≤ 0) (sbuf dbuf : List Iovec) (st : CopyState ι β) :
    copyPieces src dst n sbuf dbuf st = some st := by
  unfold copyPieces
  rw [if_pos h]

theorem copyPieces_cons (h : ¬n ≤ 0) (hlen : len = min s.iovLen d.iovLen) (st : CopyState ι β) :
    copyPieces src dst n (s :: ss) (d :: ds) st =
      copyPieces src dst (i32 (n - len)) (advance len (s :: ss)) (advance len (d :: ds))
        { st with
          spos := st.spos + len
          dpos := st.dpos + len
          nleft := sizeT (st.nleft - len)
          mem := copyAll src dst (span s.iovBase (s.iovBase + len))
            (span d.iovBase (d.iovBase + len)) st.mem } := by
  rw [copyPieces, if_neg h, hlen]

end

/-- A copy between stretches of two lists of addresses, by position. -/
theorem copyAll_positions (src dst : Int → ι) {xs ys : List Int} {offS offD n : Nat}
    (hs : offS + n ≤ xs.length) (hd : offD + n ≤ ys.length) (mem : ι → β) :
    copyAll src dst ((xs.drop offS).take n) ((ys.drop offD).take n) mem =
      writeAll ((List.range n).map fun i =>
        (dst (ys.getD (offD + i) 0), mem (src (xs.getD (offS + i) 0)))) mem := by
  have hmoves : (((xs.drop offS).take n).zip ((ys.drop offD).take n)).map
        (fun p => (dst p.2, mem (src p.1))) =
      (List.range n).map fun i =>
        (dst (ys.getD (offD + i) 0), mem (src (xs.getD (offS + i) 0))) := by
    refine List.ext_getElem (by simp; omega) fun i h₁ h₂ => ?_
    rw [length_map, length_range] at h₂
    simp [getD_eq_getElem?_getD, getElem?_eq_getElem (show offS + i < xs.length by omega),
      getElem?_eq_getElem (show offD + i < ys.length by omega)]
  rw [copyAll, hmoves]

/-- The addresses of a single piece. -/
theorem getD_addresses_single {nbytes i : Nat} (base : Int) (h : i < nbytes) :
    (addresses (tbxTbufSingle nbytes base).iov).getD i 0 = base + i := by
  simp [tbxTbufSingle, ByteSpan.span, getD_eq_getElem?_getD, getElem?_range h]

theorem addresses_advance {len : Nat} {v : Iovec} (hlen : len ≤ v.iovLen) (vs : List Iovec) :
    addresses (advance len (v :: vs)) = (addresses (v :: vs)).drop len := by
  rw [addresses_cons, drop_append_of_le_length (by rw [length_span]; omega),
    drop_span _ (by omega), advance]
  split
  · rw [span_eq_nil (by omega), nil_append]
  · rw [addresses_cons]
    congr 2
    dsimp only
    omega

theorem take_addresses {len : Nat} {v : Iovec} (hlen : len ≤ v.iovLen) (vs : List Iovec) :
    (addresses (v :: vs)).take len = span v.iovBase (v.iovBase + len) := by
  rw [addresses_cons, take_append_of_le_length (by rw [length_span]; omega),
    take_span _ (by omega)]

theorem totalLen_advance {len : Nat} {v : Iovec} (hlen : len ≤ v.iovLen) (vs : List Iovec) :
    totalLen (advance len (v :: vs)) = totalLen (v :: vs) - len := by
  rw [← length_addresses, addresses_advance hlen, length_drop, length_addresses]

variable {tb : Tbuf} {pos nbytes : Nat} {tbv : TbufVar}

theorem IsBlock.totalLen_buffer (h : IsBlock tb pos nbytes tbv)
    (htot : tb.totalBytes = totalLen tb.iov) (hin : pos + nbytes ≤ tb.totalBytes) : totalLen tbv.buffer = tbv.nbytes := by
  have hle := h.le
  rw [← length_addresses, h.bytes, length_take, length_drop, length_addresses]
  omega

/-- The first bytes of a block, and those of the request behind them. -/
theorem IsBlock.take_add (h : IsBlock tb pos nbytes tbv) {k : Nat} (hk : k ≤ tbv.nbytes) :
    ((addresses tb.iov).drop pos).take nbytes =
      (addresses tbv.buffer).take k ++
        ((addresses tb.iov).drop (pos + k)).take (nbytes - k) := by
  have hle := h.le
  rw [h.bytes, take_take, Nat.min_eq_left hk, ← drop_drop, ← List.take_add]
  congr 1
  omega

section

variable {src dst : Int → ι} (hapart : ∀ a b, src a ≠ dst b)
include hapart

/-- A copy does not change what it reads. -/
theorem copyAll_src (xs ys : List Int) (mem : ι → β) (a : Int) :
    copyAll src dst xs ys mem (src a) = mem (src a) := by
  refine writeAll_of_notMem (fun p hp => ?_) mem
  obtain ⟨q, -, rfl⟩ := mem_map.mp hp
  exact (hapart a q.2).symm

theorem copyAll_append {xs ys : List Int} (hlen : xs.length = ys.length) (xs' ys' : List Int)
    (mem : ι → β) :
    copyAll src dst (xs ++ xs') (ys ++ ys') mem =
      copyAll src dst xs' ys' (copyAll src dst xs ys mem) := by
  have hreads : (fun p : Int × Int => (dst p.2, mem (src p.1))) =
      fun p => (dst p.2, copyAll src dst xs ys mem (src p.1)) := by
    funext p
    rw [copyAll_src hapart]
  calc copyAll src dst (xs ++ xs') (ys ++ ys') mem
      = writeAll ((xs'.zip ys').map fun p => (dst p.2, mem (src p.1)))
          (copyAll src dst xs ys mem) := by
        rw [copyAll, zip_append hlen, map_append, writeAll_append]
        rfl
    _ = copyAll src dst xs' ys' (copyAll src dst xs ys mem) := by
        rw [hreads]
        rfl

/-- The loop through two blocks copies as many bytes as the shorter one has. -/
theorem copyPieces_spec (n : Int) (sbuf dbuf : List Iovec) (st : CopyState ι β) (k : Nat)
    (hn : n = k) (hk : k < 2147483648) (hmin : k = min (totalLen sbuf) (totalLen dbuf))
    (hleft : k ≤ st.nleft) (hsize : st.nleft < 18446744073709551616) :
    copyPieces src dst n sbuf dbuf st =
      some { st with
        spos := st.spos + k
        dpos := st.dpos + k
        nleft := st.nleft - k
        mem := copyAll src dst ((addresses sbuf).take k) ((addresses dbuf).take k) st.mem } := by
  induction n, sbuf, dbuf, st using copyPieces.induct src dst generalizing k with
  | case1 n sbuf dbuf st hdone =>
    obtain rfl : k = 0 := by omega
    rw [copyPieces_done hdone]
    rfl
  | case2 n st hmore s ss d ds len ih =>
    have hs : len ≤ s.iovLen := min_le_left _ _
    have hd : len ≤ d.iovLen := min_le_right _ _
    have hlen : len ≤ k := by
      rw [totalLen_cons, totalLen_cons] at hmin
      omega
    have hint : i32 (n - len) = (k - len : Nat) := by
      rw [hn, ← Int.ofNat_sub hlen, i32_natCast (by omega)]
    have hbytes : sizeT (st.nleft - len) = st.nleft - len := sizeT_sub (by omega) hsize
    have hrest := ih (k - len) hint (by omega)
      (by rw [totalLen_advance hs, totalLen_advance hd]; omega)
      (by dsimp only; omega) (by dsimp only; omega)
    have hsplit (v : Iovec) (vs : List Iovec) (hv : len ≤ v.iovLen) :
        (addresses (v :: vs)).take k =
          span v.iovBase (v.iovBase + len) ++ (addresses (advance len (v :: vs))).take (k - len) := by
      rw [← take_addresses hv vs, addresses_advance hv, ← take_add, Nat.add_sub_cancel' hlen]
    rw [copyPieces_cons hmore rfl, hrest, hsplit s ss hs, hsplit d ds hd,
      copyAll_append hapart (by rw [length_span, length_span]; omega), hbytes]
    dsimp only
    congr 2 <;> omega
  | case3 n sbuf dbuf st hmore hnone =>
    have hempty : min (totalLen sbuf) (totalLen dbuf) = 0 := by
      cases sbuf with
      | nil => exact Nat.zero_min _
      | cons s ss =>
        cases dbuf with
        | nil => exact Nat.min_zero _
        | cons d ds => exact (hnone s ss d ds rfl rfl).elim
    omega

/-- The loop over the blocks copies all bytes that are left. -/
theorem copyBlocks_spec {tbS tbD : Tbuf} (hS : tbS.totalBytes = totalLen tbS.iov)
    (hSfits : tbS.totalBytes ≤ 2147483648) (hD : tbD.totalBytes = totalLen tbD.iov)
    (hDfits : tbD.totalBytes ≤ 2147483648) (fuel : Nat) (st : CopyState ι β)
    (hfuel : st.nleft ≤ fuel) (hint : st.nleft < 2147483648)
    (hs : st.spos + st.nleft ≤ tbS.totalBytes) (hd : st.dpos + st.nleft ≤ tbD.totalBytes)
    (hstv : st.stv.Valid tbS) (hdtv : st.dtv.Valid tbD) :
    (copyBlocks src dst tbS tbD fuel st).map CopyState.mem =
      some (copyAll src dst (((addresses tbS.iov).drop st.spos).take st.nleft)
        (((addresses tbD.iov).drop st.dpos).take st.nleft) st.mem) := by
  induction fuel generalizing st with
  | zero =>
    have hnone : st.nleft = 0 := by omega
    rw [copyBlocks, if_pos hnone, hnone]
    rfl
  | succ fuel ih =>
    rw [copyBlocks]
    by_cases hnone : st.nleft = 0
    · rw [if_pos hnone, hnone]
      rfl
    obtain ⟨stv, hsnext, hsblock⟩ := tbNextBlock_spec { st.stv with nbytes := st.nleft } hS
      ⟨hstv.slot, hstv.sum⟩ (Nat.one_le_iff_ne_zero.mpr hnone) hs hSfits
    obtain ⟨dtv, hdnext, hdblock⟩ := tbNextBlock_spec { st.dtv with nbytes := st.nleft } hD
      ⟨hdtv.slot, hdtv.sum⟩ (Nat.one_le_iff_ne_zero.mpr hnone) hd hDfits
    have hslen := hsblock.totalLen_buffer hS hs
    have hdlen := hdblock.totalLen_buffer hD hd
    obtain ⟨k, hk⟩ : ∃ k, k = min stv.nbytes dtv.nbytes := ⟨_, rfl⟩
    have hpos : 1 ≤ k := by
      rw [hk]
      exact le_min hsblock.some_bytes hdblock.some_bytes
    have hks : k ≤ stv.nbytes := hk ▸ min_le_left _ _
    have hkd : k ≤ dtv.nbytes := hk ▸ min_le_right _ _
    have hkn : k ≤ st.nleft := hks.trans hsblock.le
    have hblock := copyPieces_spec hapart (i32 k) stv.buffer dtv.buffer
      { st with stv := stv, dtv := dtv } k (i32_natCast (by omega)) (by omega)
      (by rw [hslen, hdlen, hk]) hkn (by dsimp only; omega)
    rw [if_neg hnone, hsnext, hdnext]
    dsimp only
    rw [← hk, hblock, Option.bind_some, ih _ (by dsimp only; omega) (by dsimp only; omega)
      (by dsimp only; omega) (by dsimp only; omega) hsblock.valid hdblock.valid]
    dsimp only
    rw [hsblock.take_add hks, hdblock.take_add hkd, copyAll_append hapart]
    rw [length_take, length_take, length_addresses, length_addresses]
    omega

/-- `tbx_tbuf_copy` of bytes that both buffers have copies them position by position. -/
theorem tbxTbufCopy_spec {tbS tbD : Tbuf} (hS : tbS.totalBytes = totalLen tbS.iov)
    (hSfits : tbS.totalBytes ≤ 2147483648) (hD : tbD.totalBytes = totalLen tbD.iov)
    (hDfits : tbD.totalBytes ≤ 2147483648) {offS offD nbytes : Nat} (hn : nbytes < 2147483648)
    (hs : offS + nbytes ≤ tbS.totalBytes) (hd : offD + nbytes ≤ tbD.totalBytes) (mem : ι → β) :
    tbxTbufCopy src dst tbS offS tbD offD nbytes mem =
      some (writeAll ((List.range nbytes).map fun i =>
        (dst ((addresses tbD.iov).getD (offD + i) 0),
          mem (src ((addresses tbS.iov).getD (offS + i) 0)))) mem) := by
  rw [tbxTbufCopy, copyBlocks_spec hapart hS hSfits hD hDfits nbytes _ le_rfl hn hs hd
    (TbufVar.valid_init _) (TbufVar.valid_init _),
    copyAll_positions src dst (by rwa [length_addresses, ← hS]) (by rwa [length_addresses, ← hD])]

end

end LStore.Toolbox
