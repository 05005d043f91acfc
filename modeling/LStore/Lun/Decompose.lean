import LStore.Lun.Layout
import LStore.Toolbox.TransferBuffer

/-!
# Cutting a row request into device requests

`lun_row_decompose` of `src/lio/segment/lun.c` takes a part of a row, stripe by
stripe and chunk by chunk, and appends to the request of every device the memory
pieces that belong to its chunks and one extent for them. The chunks of a device
are adjacent on it, also where the stripes are rotated over the devices.

The result for a device is the list of the requested bytes that live on it, each
with its offset on the device and its address in memory.

## Implementation notes

The number of a stripe and its shift are kept in an `int`, and the remainder is that of C.
The shift of a segment is not negative; offsets are unbounded.
-/

namespace LStore.Lun

open ByteSpan LStore.Toolbox List Function MachineInt

/-- `ex_tbx_iovec_t`. -/
structure ExIovec where
  offset : Int
  len : Int
deriving DecidableEq, Repr

/-- `lun_rw_row_t`: the extents and memory pieces of one device, and their length. -/
structure LunRwRow where
  exIov : List ExIovec
  iov : List Iovec
  len : Int
deriving DecidableEq, Repr

/-- A cleared table entry. -/
def LunRwRow.zero : LunRwRow := ⟨[], [], 0⟩

/-- The loop of `tbx_tbuf_next` calls for `nleft` bytes at `pos`. An error ends it,
with the pieces of the block before it once more. -/
def nextPieces (buffer : Tbuf) : Nat → Nat → Nat → TbufVar → List Iovec × TbufVar
  | 0, _, _, tbv => ([], tbv)
  | fuel + 1, pos, nleft, tbv =>
    if nleft = 0 then ([], tbv)
    else
      match tbNextBlock buffer pos { tbv with nbytes := nleft } with
      | none => (tbv.buffer, tbv)
      | some tbv' =>
        let (pieces, tbv'') :=
          nextPieces buffer fuel (pos + tbv'.nbytes) (nleft - tbv'.nbytes) tbv'
        (tbv'.buffer ++ pieces, tbv'')

/-- `offset[i]` and `len[i]`. -/
structure Part where
  offset : Int
  len : Int
deriving DecidableEq, Repr

/-- What the loop over the stripes carries. -/
structure Decomposing where
  tbv : TbufVar
  rwBuf : Nat → LunRwRow
  part : Nat → Part

variable (g : Geometry) (nShift : Nat) (buffer : Tbuf)

/-- `chunk_off` of device `i` in stripe `ss`. -/
def intChunkOff (ss : Int) (i : Nat) : Int :=
  ss * g.stripeSize + (i32 (i + i32 (ss * nShift))).tmod g.nDevices * g.chunkSize

/-- One device of one stripe. -/
def decomposeChunk (lo hi bpos ss : Int) (d : Decomposing) (i : Nat) : Decomposing :=
  let chunkOff := intChunkOff g nShift ss i
  let chunkEnd := chunkOff + g.chunkSize - 1
  if lo ≤ chunkEnd ∧ chunkOff ≤ hi then
    let first := if chunkOff < lo then lo - chunkOff else 0
    let last := if hi < chunkEnd then hi - chunkOff else g.chunkSize - 1
    let nbytes := last - first + 1
    let offset :=
      if (d.part i).offset = -1 then i32 ss * g.chunkSize + first else (d.part i).offset
    let pos := bpos + chunkOff + first - lo
    let (pieces, tbv) := nextPieces buffer nbytes.toNat pos.toNat nbytes.toNat d.tbv
    { tbv := tbv
      rwBuf := Function.update d.rwBuf i
        { d.rwBuf i with iov := (d.rwBuf i).iov ++ pieces }
      part := Function.update d.part i ⟨offset, (d.part i).len + nbytes⟩ }
  else d

/-- All devices of one stripe. -/
def decomposeStripe (lo hi bpos : Int) (d : Decomposing) (ss : Int) : Decomposing :=
  (List.range g.nDevices).foldl (decomposeChunk g nShift buffer lo hi bpos ss) d

/-- The stripes from that of `lo` on that start no later than `hi`. -/
def stripes (lo hi : Int) : List Int := span (i32 (lo / g.stripeSize)) (hi / g.stripeSize + 1)

/-- The extent a device request gets at the end. -/
def closePart (r : LunRwRow) (p : Part) : LunRwRow :=
  if 0 ≤ p.offset then
    { r with exIov := r.exIov ++ [⟨p.offset, p.len⟩], len := r.len + p.len }
  else r

/-- `lun_row_decompose`. -/
def lunRowDecompose (rwBuf : Nat → LunRwRow) (start bpos rwlen : Int) : Nat → LunRwRow :=
  let lo := start
  let hi := lo + rwlen - 1
  let d := (stripes g lo hi).foldl (decomposeStripe g nShift buffer lo hi bpos)
    ⟨TbufVar.init, rwBuf, fun _ => ⟨-1, 0⟩⟩
  fun i => if i < g.nDevices then closePart (d.rwBuf i) (d.part i) else rwBuf i

/-- Where the chunk of device `i` in stripe `ss` starts in the row. -/
def chunkOff (ss : Int) (i : Nat) : Int :=
  ss * g.stripeSize + (i + ss * nShift) % g.nDevices * g.chunkSize

/-- The device that holds offset `p` of a row. -/
def deviceOf (p : Int) : Nat :=
  ((p % g.stripeSize / g.chunkSize - p / g.stripeSize * nShift) % g.nDevices).toNat

/-- The offset on its device of offset `p` of a row. -/
def deviceOffset (p : Int) : Int :=
  p / g.stripeSize * g.chunkSize + p % g.stripeSize % g.chunkSize

variable {g : Geometry} {nShift : Nat} {ss p q : Int} {i : Nat}

theorem sub_emod_eq_iff {c s n x : Int} (hx : 0 ≤ x) (hxn : x < n) (hc : 0 ≤ c) (hcn : c < n) :
    (c - s) % n = x ↔ (x + s) % n = c := by
  constructor
  · rintro rfl
    rw [Int.emod_add_emod, sub_add_cancel, Int.emod_eq_of_lt hc hcn]
  · rintro rfl
    rw [Int.emod_sub_emod, Int.add_sub_cancel, Int.emod_eq_of_lt hx hxn]

theorem deviceOf_lt (p : Int) : deviceOf g nShift p < g.nDevices := by
  have hn := nDevices_pos g
  have := Int.emod_lt_of_pos
    (p % g.stripeSize / g.chunkSize - p / g.stripeSize * nShift) hn
  rw [deviceOf]
  omega

/-- The chunk of a row offset within its stripe. -/
theorem chunk_bounds (p : Int) :
    0 ≤ p % g.stripeSize / g.chunkSize ∧ p % g.stripeSize / g.chunkSize < g.nDevices := by
  have hs := stripeSize_pos g
  have hc := chunkSize_pos g
  refine ⟨Int.ediv_nonneg (Int.emod_nonneg _ hs.ne') hc.le, ?_⟩
  rw [Int.ediv_lt_iff_lt_mul hc]
  exact Int.emod_lt_of_pos _ hs

theorem deviceOf_eq_iff_emod (hi : i < g.nDevices) :
    deviceOf g nShift p = i ↔
      ((i : Int) + p / g.stripeSize * nShift) % g.nDevices = p % g.stripeSize / g.chunkSize := by
  obtain ⟨hc, hcn⟩ := chunk_bounds (g := g) p
  have hnonneg := Int.emod_nonneg
    (p % g.stripeSize / g.chunkSize - p / g.stripeSize * nShift) (nDevices_pos g).ne'
  rw [← sub_emod_eq_iff (by omega) (by omega) hc hcn, deviceOf]
  omega

theorem ediv_stripe (hlo : ss * g.stripeSize ≤ p) (hhi : p < (ss + 1) * g.stripeSize) :
    p / g.stripeSize = ss ∧ p % g.stripeSize = p - ss * g.stripeSize := by
  have hs := stripeSize_pos g
  have hdiv : p / g.stripeSize = ss := by
    rw [Int.ediv_eq_iff_of_pos hs]
    rw [add_mul, one_mul] at hhi
    exact ⟨hlo, by omega⟩
  refine ⟨hdiv, ?_⟩
  have := Int.emod_add_mul_ediv p g.stripeSize
  rw [hdiv, mul_comm] at this
  omega

/-- Inside a stripe, the offsets of a device are those of its chunk. -/
theorem deviceOf_eq_iff (hi : i < g.nDevices) (hlo : ss * g.stripeSize ≤ p)
    (hhi : p < (ss + 1) * g.stripeSize) :
    deviceOf g nShift p = i ↔
      chunkOff g nShift ss i ≤ p ∧ p < chunkOff g nShift ss i + g.chunkSize := by
  obtain ⟨hdiv, hmod⟩ := ediv_stripe hlo hhi
  rw [deviceOf_eq_iff_emod hi, hdiv, hmod, eq_comm, Int.ediv_eq_iff_of_pos (chunkSize_pos g),
    chunkOff]
  omega

theorem chunkOff_bounds (g : Geometry) (nShift : Nat) (ss : Int) (i : Nat) :
    ss * g.stripeSize ≤ chunkOff g nShift ss i ∧
      chunkOff g nShift ss i + g.chunkSize ≤ (ss + 1) * g.stripeSize := by
  have hn := nDevices_pos g
  have hc := chunkSize_pos g
  have hnonneg := Int.emod_nonneg ((i : Int) + ss * nShift) hn.ne'
  have hlt := Int.emod_lt_of_pos ((i : Int) + ss * nShift) hn
  set dev := ((i : Int) + ss * nShift) % g.nDevices with hdev
  have hlow : 0 ≤ dev * g.chunkSize := mul_nonneg hnonneg hc.le
  have hhigh : (dev + 1) * g.chunkSize ≤ g.nDevices * g.chunkSize :=
    mul_le_mul_of_nonneg_right hlt hc.le
  have hstripe : g.stripeSize = g.nDevices * g.chunkSize := rfl
  rw [add_mul, one_mul] at hhigh
  rw [chunkOff, ← hdev, add_mul, one_mul]
  omega

theorem deviceOffset_eq
    (hp : chunkOff g nShift ss i ≤ p ∧ p < chunkOff g nShift ss i + g.chunkSize) :
    deviceOffset g p = ss * g.chunkSize + (p - chunkOff g nShift ss i) := by
  obtain ⟨hlow, hhigh⟩ := chunkOff_bounds g nShift ss i
  obtain ⟨hdiv, hmod⟩ := ediv_stripe (show ss * g.stripeSize ≤ p by omega) (by omega)
  have hrest : (p - ss * g.stripeSize) % g.chunkSize = p - chunkOff g nShift ss i := by
    have hsplit : p - ss * g.stripeSize = (p - chunkOff g nShift ss i) +
        g.chunkSize * ((i + ss * nShift) % g.nDevices) := by
      rw [chunkOff, mul_comm (g.chunkSize : Int)]
      omega
    rw [hsplit, Int.add_mul_emod_self_left, Int.emod_eq_of_lt (by omega) (by omega)]
  rw [deviceOffset, hdiv, hmod, hrest]

/-- Device and offset determine the row offset. -/
theorem place_injective (hdev : deviceOf g nShift p = deviceOf g nShift q)
    (hoff : deviceOffset g p = deviceOffset g q) : p = q := by
  have hc := chunkSize_pos g
  have hlow (x : Int) : x % g.stripeSize % g.chunkSize < g.chunkSize ∧
      0 ≤ x % g.stripeSize % g.chunkSize :=
    ⟨Int.emod_lt_of_pos _ hc, Int.emod_nonneg _ hc.ne'⟩
  have hstripe (x : Int) : deviceOffset g x / g.chunkSize = x / g.stripeSize := by
    obtain ⟨hlt, hnonneg⟩ := hlow x
    rw [deviceOffset, add_comm, Int.add_mul_ediv_right _ _ hc.ne',
      Int.ediv_eq_zero_of_lt hnonneg hlt, zero_add]
  have hdiv : p / g.stripeSize = q / g.stripeSize := by rw [← hstripe p, hoff, hstripe q]
  have hwithin : p % g.stripeSize % g.chunkSize = q % g.stripeSize % g.chunkSize := by
    simp only [deviceOffset, hdiv] at hoff
    omega
  have hchunk : p % g.stripeSize / g.chunkSize = q % g.stripeSize / g.chunkSize := by
    rw [← (deviceOf_eq_iff_emod (deviceOf_lt q)).mp hdev, ← (deviceOf_eq_iff_emod
      (deviceOf_lt q)).mp rfl, hdiv]
  have hmod : p % g.stripeSize = q % g.stripeSize := by
    rw [← Int.emod_add_mul_ediv (p % g.stripeSize) g.chunkSize, hwithin, hchunk,
      Int.emod_add_mul_ediv]
  rw [← Int.emod_add_mul_ediv p g.stripeSize, hdiv, hmod, Int.emod_add_mul_ediv]

variable {buffer : Tbuf} {lo hi bpos : Int}
variable {target : List (Int × Int)}

/-- A request inside the buffer collects the memory of its bytes. -/
theorem nextPieces_spec (htot : buffer.totalBytes = totalLen buffer.iov)
    (hbytes : buffer.totalBytes ≤ 2147483648) (fuel : Nat)
    {pos nleft tbv} (hv : tbv.Valid buffer) (hfuel : nleft ≤ fuel)
    (hin : pos + nleft ≤ buffer.totalBytes) :
    addresses (nextPieces buffer fuel pos nleft tbv).1 =
        ((addresses buffer.iov).drop pos).take nleft ∧
      (nextPieces buffer fuel pos nleft tbv).2.Valid buffer := by
  induction fuel generalizing pos nleft tbv with
  | zero =>
    obtain rfl : nleft = 0 := by omega
    exact ⟨by simp [nextPieces], hv⟩
  | succ fuel ih =>
    by_cases hdone : nleft = 0
    · subst hdone
      exact ⟨by simp [nextPieces], hv⟩
    · obtain ⟨tbv', hrun, hblock⟩ := tbNextBlock_spec { tbv with nbytes := nleft } htot
        ⟨hv.slot, hv.sum⟩ (by simp; omega) hin hbytes
      have hsome := hblock.some_bytes
      have hle : tbv'.nbytes ≤ nleft := hblock.le
      obtain ⟨hbytes, hvalid⟩ := ih hblock.valid (by omega)
        (show pos + tbv'.nbytes + (nleft - tbv'.nbytes) ≤ buffer.totalBytes by omega)
      have hsum : tbv'.nbytes + (nleft - tbv'.nbytes) = nleft := by omega
      simp only [nextPieces, if_neg hdone, hrun]
      refine ⟨?_, hvalid⟩
      rw [addresses_append, hblock.bytes, hbytes, window_append, hsum]

/-- The part of a row request that lies in front of stripe `ss`. -/
def reached (g : Geometry) (lo hi ss : Int) : Int := max lo (min (hi + 1) (ss * g.stripeSize))

/-- The requested bytes in front of `upto` that live on device `i`: their offsets
there and their addresses. -/
def onDevice (g : Geometry) (nShift : Nat) (buffer : Tbuf) (lo bpos upto : Int) (i : Nat) :
    List (Int × Int) :=
  ((paired (addresses buffer.iov) bpos.toNat lo upto).filter
    fun p => decide (deviceOf g nShift p.1 = i)).map fun p => (deviceOffset g p.1, p.2)

/-- A device request that started as `old` has the pieces and will get the extent
for `target`. -/
structure Gathered (old : LunRwRow) (target : List (Int × Int)) (r : LunRwRow) (p : Part) :
    Prop where
  pieces : ∃ ps, r = { old with iov := old.iov ++ ps } ∧ ((addresses ps).length : Int) = p.len ∧
    (span p.offset (p.offset + p.len)).zip (addresses ps) = target ∧
    (p.offset = -1 ∧ ps = [] ∨ 0 ≤ p.offset ∧ 1 ≤ p.len)

/-- A device that has a part of the request has it up to the end of its chunk, as long
as the request goes on. -/
def Adjoins (g : Geometry) (hi ss : Int) (p : Part) : Prop :=
  p.offset ≠ -1 → ss * g.stripeSize ≤ hi → p.offset + p.len = ss * g.chunkSize

/-- A request that lies in its row and in the buffer, so that what is counted in an `int`
fits: positions in the buffer, the stripes of the request and their shifts. -/
structure InBuffer (g : Geometry) (nShift : Nat) (buffer : Tbuf) (lo hi bpos : Int) : Prop where
  total : buffer.totalBytes = totalLen buffer.iov
  low : 0 ≤ lo
  some_bytes : lo ≤ hi
  bpos_nonneg : 0 ≤ bpos
  fits : bpos + (hi - lo + 1) ≤ buffer.totalBytes
  bytes : buffer.totalBytes ≤ 2147483648
  stripe : hi / g.stripeSize < 2147483648
  shift : hi / g.stripeSize * nShift + g.nDevices ≤ 2147483648

theorem Gathered.length_target {old r p} (h : Gathered old target r p) :
    (target.length : Int) = p.len := by
  obtain ⟨ps, _, hlen, rfl, _⟩ := h.pieces
  rw [length_zip, length_span]
  omega

theorem Gathered.fresh {old r p} (h : Gathered old target r p) (hp : p.offset = -1) :
    p.len = 0 := by
  obtain ⟨ps, _, hlen, _, ⟨_, rfl⟩ | ⟨hoff, _⟩⟩ := h.pieces
  · exact hlen.symm
  · omega

/-- Taking the next chunk of a device. -/
theorem Gathered.push {old r p} (h : Gathered old target r p) {first n ps} (hfirst : 0 ≤ first)
    (hn : 1 ≤ n) (hps : (addresses ps).length = n)
    (hadj : p.offset ≠ -1 → p.offset + p.len = first) :
    Gathered old (target ++ (span first (first + n)).zip (addresses ps))
      { r with iov := r.iov ++ ps }
      ⟨if p.offset = -1 then first else p.offset, p.len + n⟩ := by
  obtain ⟨qs, rfl, hlen, htarget, hcase⟩ := h.pieces
  refine ⟨qs ++ ps, by simp, by simp [hps, ← hlen], ?_, .inr ?_⟩
  · rcases hcase with ⟨hnone, rfl⟩ | ⟨hoff, hpos⟩
    · rw [if_pos hnone, ← htarget, ← hlen]
      simp [hnone, span_eq_nil]
    · have hne : p.offset ≠ -1 := by omega
      have hmid := hadj hne
      rw [if_neg hne, ← htarget, addresses_append, ← zip_append (by rw [length_span]; omega),
        ← hmid, span_append (by omega) (by omega), add_assoc]
  · change 0 ≤ (if p.offset = -1 then first else p.offset) ∧ 1 ≤ p.len + n
    omega

/-- The offsets that stripe `ss` adds lie in it. -/
theorem mem_stripe {x} (hlo : reached g lo hi ss ≤ x) (hhi : x < reached g lo hi (ss + 1)) :
    ss * g.stripeSize ≤ x ∧ x < (ss + 1) * g.stripeSize := by
  simp only [reached] at hlo hhi
  omega

section

variable (h : InBuffer g nShift buffer lo hi bpos)
include h

theorem InBuffer.reached_le (ss : Int) : reached g lo hi ss ≤ hi + 1 := by
  have := h.some_bytes
  simp only [reached]
  omega

/-- Nothing wraps in the stripes of the request. -/
theorem InBuffer.stripe_fits (hss : 0 ≤ ss) (hlast : ss ≤ hi / g.stripeSize) :
    i32 ss = ss ∧ ∀ i < g.nDevices, intChunkOff g nShift ss i = chunkOff g nShift ss i := by
  have hstripe := h.stripe
  have hshift := h.shift
  have hmono : ss * nShift ≤ hi / g.stripeSize * nShift :=
    mul_le_mul_of_nonneg_right hlast (Int.natCast_nonneg _)
  have hnonneg : 0 ≤ ss * nShift := mul_nonneg hss (Int.natCast_nonneg _)
  refine ⟨i32_eq_self (by omega) (by omega), fun i hi' => ?_⟩
  rw [intChunkOff, chunkOff, i32_eq_self (x := ss * nShift) (by omega) (by omega),
    i32_eq_self (by omega) (by omega), Int.tmod_eq_emod_of_nonneg (by omega)]

theorem InBuffer.length : (addresses buffer.iov).length = buffer.totalBytes := by
  rw [length_addresses, h.total]

/-- What lies on device `i` after stripe `ss` is what did before and the stripe's share. -/
theorem onDevice_succ (ss : Int) (i : Nat) :
    onDevice g nShift buffer lo bpos (reached g lo hi (ss + 1)) i =
      onDevice g nShift buffer lo bpos (reached g lo hi ss) i ++
        ((paired (addresses buffer.iov) (bpos.toNat + (reached g lo hi ss - lo).toNat)
          (reached g lo hi ss) (reached g lo hi (ss + 1))).filter
            fun p => decide (deviceOf g nShift p.1 = i)).map fun p => (deviceOffset g p.1, p.2) := by
  obtain ⟨hlow, hhigh⟩ := chunkOff_bounds g nShift ss i
  have hfits := h.fits
  have hbpos := h.bpos_nonneg
  have hlen := h.length
  have hbelow : lo ≤ reached g lo hi ss := le_max_left _ _
  have hmono : reached g lo hi ss ≤ reached g lo hi (ss + 1) := by
    simp only [reached]
    omega
  have htop := h.reached_le (g := g) (ss + 1)
  simp only [onDevice]
  rw [← paired_append hbelow hmono (by omega), filter_append, map_append]

/-- A stripe whose chunk of the device lies outside the request adds nothing. -/
theorem onDevice_misses (hi' : i < g.nDevices)
    (hmiss : chunkOff g nShift ss i + g.chunkSize ≤ lo ∨ hi < chunkOff g nShift ss i) :
    onDevice g nShift buffer lo bpos (reached g lo hi (ss + 1)) i =
      onDevice g nShift buffer lo bpos (reached g lo hi ss) i := by
  rw [onDevice_succ h, filter_eq_nil_iff.mpr, map_nil, append_nil]
  intro p hp hdev
  obtain ⟨hlow, hhigh⟩ := mem_span_of_paired hp
  obtain ⟨hss, hss'⟩ := mem_stripe hlow hhigh
  have hin := (deviceOf_eq_iff hi' hss hss').mp (of_decide_eq_true hdev)
  have hlo : lo ≤ reached g lo hi ss := le_max_left _ _
  have htop := h.reached_le (g := g) (ss + 1)
  omega

/-- A stripe whose chunk of the device meets the request adds the common part `[u, v)`. -/
theorem onDevice_meets (hi' : i < g.nDevices) {c u v} (hc : c = chunkOff g nShift ss i)
    (hu : u = max lo c) (hv : v = min (hi + 1) (c + g.chunkSize)) (huv : u ≤ v) :
    onDevice g nShift buffer lo bpos (reached g lo hi (ss + 1)) i =
      onDevice g nShift buffer lo bpos (reached g lo hi ss) i ++
        (span (ss * g.chunkSize + (u - c)) (ss * g.chunkSize + (v - c))).zip
          (((addresses buffer.iov).drop (bpos + (u - lo)).toNat).take (v - u).toNat) := by
  obtain ⟨hlow, hhigh⟩ := chunkOff_bounds g nShift ss i
  have hfits := h.fits
  have hbpos := h.bpos_nonneg
  have hlen := h.length
  have hlo : lo ≤ reached g lo hi ss := le_max_left _ _
  have hbelow : reached g lo hi ss ≤ u := by
    simp only [reached]
    omega
  have habove : v ≤ reached g lo hi (ss + 1) := by
    simp only [reached]
    omega
  have htop := h.reached_le (g := g) (ss + 1)
  have hstart : bpos.toNat + (reached g lo hi ss - lo).toNat + (u - reached g lo hi ss).toNat =
      (bpos + (u - lo)).toNat := by omega
  have hshift : (span u v).map (deviceOffset g) =
      span (ss * g.chunkSize + (u - c)) (ss * g.chunkSize + (v - c)) := by
    have hmap := map_add_span (ss * g.chunkSize - c) u v
    rw [show ss * (g.chunkSize : Int) - c + u = ss * g.chunkSize + (u - c) by omega,
      show ss * (g.chunkSize : Int) - c + v = ss * g.chunkSize + (v - c) by omega] at hmap
    rw [← hmap]
    refine map_congr_left fun x hx => ?_
    have hx' := mem_span.mp hx
    rw [deviceOffset_eq (show chunkOff g nShift ss i ≤ x ∧ x < _ by omega)]
    omega
  rw [onDevice_succ h]
  congr 1
  rw [filter_paired (fun x => decide (deviceOf g nShift x = i)) hbelow huv habove (by omega),
    hstart, paired, ← hshift, zip_map_left]
  · rfl
  · intro x hx hx'
    obtain ⟨hss, hss'⟩ := mem_stripe hx hx'
    rw [decide_eq_true_iff, deviceOf_eq_iff hi' hss hss']
    omega

end

/-- What one device has gathered in front of stripe `ss`. -/
structure DeviceAt (g : Geometry) (nShift : Nat) (buffer : Tbuf) (lo hi bpos ss : Int)
    (old : LunRwRow) (i : Nat) (r : LunRwRow) (p : Part) : Prop where
  gathered : Gathered old (onDevice g nShift buffer lo bpos (reached g lo hi ss) i) r p
  adjoins : Adjoins g hi ss p

variable {old : LunRwRow} {d : Decomposing}

/-- A device that has something has it from an earlier stripe. -/
theorem DeviceAt.started {r p} (h : DeviceAt g nShift buffer lo hi bpos ss old i r p)
    (hne : p.offset ≠ -1) : lo < ss * g.stripeSize := by
  by_contra hle
  have hreached : reached g lo hi ss = lo := by
    simp only [reached]
    omega
  have hnil : onDevice g nShift buffer lo bpos (reached g lo hi ss) i = [] := by
    rw [hreached, onDevice, paired_eq_nil le_rfl, filter_nil, map_nil]
  have hlen := h.gathered.length_target
  rw [hnil] at hlen
  obtain ⟨_, _, _, _, hcase⟩ := h.gathered.pieces
  simp only [length_nil, Nat.cast_zero] at hlen
  omega

theorem decomposeChunk_meets {c u v} (hss : i32 ss = ss)
    (hoff : intChunkOff g nShift ss i = chunkOff g nShift ss i)
    (hc : c = chunkOff g nShift ss i) (hu : u = max lo c)
    (hv : v = min (hi + 1) (c + g.chunkSize)) (hlo : lo < c + g.chunkSize) (hhi : c ≤ hi) :
    decomposeChunk g nShift buffer lo hi bpos ss d i =
      let next := nextPieces buffer (v - u).toNat (bpos + (u - lo)).toNat (v - u).toNat d.tbv
      { tbv := next.2
        rwBuf := update d.rwBuf i { d.rwBuf i with iov := (d.rwBuf i).iov ++ next.1 }
        part := update d.part i
          ⟨if (d.part i).offset = -1 then ss * g.chunkSize + (u - c) else (d.part i).offset,
            (d.part i).len + (v - u)⟩ } := by
  have hfirst : (if c < lo then lo - c else 0) = u - c := by
    split_ifs <;> omega
  have hlast : (if hi < c + g.chunkSize - 1 then hi - c else g.chunkSize - 1) = v - c - 1 := by
    split_ifs <;> omega
  have hnbytes : v - c - 1 - (u - c) + 1 = v - u := by omega
  have hpos : bpos + c + (u - c) - lo = bpos + (u - lo) := by omega
  rw [decomposeChunk]
  simp only [hoff, hss, ← hc]
  rw [if_pos (by omega), hfirst, hlast, hnbytes, hpos]

section

variable (h : InBuffer g nShift buffer lo hi bpos)
include h

/-- One chunk: its device moves on to the next stripe, the others stay. -/
theorem decomposeChunk_spec (hss : 0 ≤ ss) (hlast : ss ≤ hi / g.stripeSize) (hi' : i < g.nDevices)
    (hv : d.tbv.Valid buffer)
    (hd : DeviceAt g nShift buffer lo hi bpos ss old i (d.rwBuf i) (d.part i)) :
    (decomposeChunk g nShift buffer lo hi bpos ss d i).tbv.Valid buffer ∧
      DeviceAt g nShift buffer lo hi bpos (ss + 1) old i
        ((decomposeChunk g nShift buffer lo hi bpos ss d i).rwBuf i)
        ((decomposeChunk g nShift buffer lo hi bpos ss d i).part i) ∧
      ∀ j, j ≠ i → (decomposeChunk g nShift buffer lo hi bpos ss d i).rwBuf j = d.rwBuf j ∧
        (decomposeChunk g nShift buffer lo hi bpos ss d i).part j = d.part j := by
  obtain ⟨hlow, hhigh⟩ := chunkOff_bounds g nShift ss i
  have hchunk := chunkSize_pos g
  have hsome := h.some_bytes
  have hstep : (ss + 1) * (g.chunkSize : Int) = ss * g.chunkSize + g.chunkSize := by
    rw [add_mul, one_mul]
  obtain ⟨hint, hoff⟩ := h.stripe_fits hss hlast
  by_cases hmiss : chunkOff g nShift ss i + g.chunkSize ≤ lo ∨ hi < chunkOff g nShift ss i
  · rw [decomposeChunk, hoff i hi', if_neg (by omega)]
    refine ⟨hv, ⟨?_, ?_⟩, fun _ _ => ⟨rfl, rfl⟩⟩
    · rw [onDevice_misses h hi' hmiss]
      exact hd.gathered
    · intro hne hmore
      have := hd.started hne
      omega
  · obtain ⟨c, hc⟩ : ∃ c, c = chunkOff g nShift ss i := ⟨_, rfl⟩
    obtain ⟨u, hu⟩ : ∃ u, u = max lo c := ⟨_, rfl⟩
    obtain ⟨v, hv'⟩ : ∃ v, v = min (hi + 1) (c + g.chunkSize) := ⟨_, rfl⟩
    rw [decomposeChunk_meets hint (hoff i hi') hc hu hv' (by omega) (by omega)]
    have hfits := h.fits
    have hbpos := h.bpos_nonneg
    obtain ⟨hbytes, hvalid⟩ := nextPieces_spec h.total h.bytes (v - u).toNat hv le_rfl
      (show (bpos + (u - lo)).toNat + (v - u).toNat ≤ buffer.totalBytes by omega)
    refine ⟨hvalid, ?_, fun j hj => ⟨update_of_ne hj _ _, update_of_ne hj _ _⟩⟩
    have hlen : (addresses (nextPieces buffer (v - u).toNat (bpos + (u - lo)).toNat (v - u).toNat
        d.tbv).1).length = (v - u).toNat := by
      rw [hbytes, length_window]
      rw [h.length]
      omega
    have hcast : ((v - u).toNat : Int) = v - u := by omega
    have hend : ss * (g.chunkSize : Int) + (u - c) + (v - u) = ss * g.chunkSize + (v - c) := by
      omega
    have hfirst : 0 ≤ ss * (g.chunkSize : Int) := mul_nonneg hss hchunk.le
    have hpush := hd.gathered.push (show 0 ≤ ss * (g.chunkSize : Int) + (u - c) by omega)
      (by omega) hlen fun hne => by
      have hstart := hd.started hne
      rw [hd.adjoins hne (by omega)]
      omega
    rw [hcast, hend, hbytes, ← onDevice_meets h hi' hc hu hv' (by omega)] at hpush
    simp only [update_self]
    refine ⟨hpush, ?_⟩
    intro _ hmore
    split_ifs with hfresh
    · have hzero := hd.gathered.fresh hfresh
      simp only []
      omega
    · have hstart := hd.started hfresh
      have := hd.adjoins hfresh (by omega)
      simp only []
      omega

/-- One stripe: every device moves on. -/
theorem decomposeStripe_spec (hss : 0 ≤ ss) (hlast : ss ≤ hi / g.stripeSize)
    (hv : d.tbv.Valid buffer) {old : Nat → LunRwRow}
    (hd : ∀ i < g.nDevices,
      DeviceAt g nShift buffer lo hi bpos ss (old i) i (d.rwBuf i) (d.part i)) :
    (decomposeStripe g nShift buffer lo hi bpos d ss).tbv.Valid buffer ∧
      ∀ i < g.nDevices, DeviceAt g nShift buffer lo hi bpos (ss + 1) (old i) i
        ((decomposeStripe g nShift buffer lo hi bpos d ss).rwBuf i)
        ((decomposeStripe g nShift buffer lo hi bpos d ss).part i) := by
  have hsome : ∀ k ≤ g.nDevices,
      let d' := (List.range k).foldl (decomposeChunk g nShift buffer lo hi bpos ss) d
      d'.tbv.Valid buffer ∧ ∀ i < g.nDevices,
        DeviceAt g nShift buffer lo hi bpos (if i < k then ss + 1 else ss) (old i) i
          (d'.rwBuf i) (d'.part i) := by
    intro k hk
    induction k with
    | zero => exact ⟨hv, fun i hi' => by simpa using hd i hi'⟩
    | succ k ih =>
      obtain ⟨hvalid, hall⟩ := ih (by omega)
      rw [range_succ, foldl_append, foldl_cons, foldl_nil]
      set d' := (List.range k).foldl (decomposeChunk g nShift buffer lo hi bpos ss) d
      have hk' := hall k hk
      rw [if_neg (lt_irrefl k)] at hk'
      obtain ⟨hvalid', hnew, hother⟩ := decomposeChunk_spec h hss hlast hk hvalid hk'
      refine ⟨hvalid', fun i hi' => ?_⟩
      by_cases heq : i = k
      · subst heq
        rw [if_pos (Nat.lt_succ_self i)]
        exact hnew
      · obtain ⟨hbuf, hpart⟩ := hother i heq
        have hsame : (if i < k + 1 then ss + 1 else ss) = if i < k then ss + 1 else ss :=
          if_congr (by omega) rfl rfl
        rw [hbuf, hpart, hsame]
        exact hall i hi'
  obtain ⟨hvalid, hall⟩ := hsome g.nDevices le_rfl
  refine ⟨hvalid, fun i hi' => ?_⟩
  have hlast := hall i hi'
  rwa [if_pos hi'] at hlast

/-- All stripes from `ss` on, `n` of them. -/
theorem foldl_decomposeStripe {old : Nat → LunRwRow} (n : Nat) (hss : 0 ≤ ss)
    (hlast : ss + n ≤ hi / g.stripeSize + 1) (hv : d.tbv.Valid buffer)
    (hd : ∀ i < g.nDevices,
      DeviceAt g nShift buffer lo hi bpos ss (old i) i (d.rwBuf i) (d.part i)) :
    ∀ i < g.nDevices, DeviceAt g nShift buffer lo hi bpos (ss + n) (old i) i
      (((span ss (ss + n)).foldl (decomposeStripe g nShift buffer lo hi bpos) d).rwBuf i)
      (((span ss (ss + n)).foldl (decomposeStripe g nShift buffer lo hi bpos) d).part i) := by
  induction n generalizing ss d with
  | zero =>
    intro i hi'
    simpa [span_eq_nil] using hd i hi'
  | succ n ih =>
    obtain ⟨hvalid, hall⟩ := decomposeStripe_spec h hss (by omega) hv hd
    have hstep : ss + 1 + (n : Int) = ss + (n + 1 : Nat) := by omega
    have hrest := ih (show 0 ≤ ss + 1 by omega) (by omega) hvalid hall
    rw [hstep] at hrest
    rw [span_cons (by omega), foldl_cons]
    exact hrest

end

/-- The device offsets of extents, in transfer order. -/
def extentBytes (es : List ExIovec) : List Int := positions (es.map fun e => (e.offset, e.len))

@[simp] theorem extentBytes_nil : extentBytes [] = [] := rfl

@[simp] theorem extentBytes_append (es fs : List ExIovec) :
    extentBytes (es ++ fs) = extentBytes es ++ extentBytes fs := by
  simp [extentBytes]

@[simp] theorem extentBytes_single (e : ExIovec) :
    extentBytes [e] = span e.offset (e.offset + e.len) := by
  simp [extentBytes]

/-- What a decomposition adds to a device request: nothing, or one extent with memory
pieces of its length, which transfer `target` byte by byte. -/
structure Appends (old new : LunRwRow) (target : List (Int × Int)) : Prop where
  added : ∃ exs ps, new = ⟨old.exIov ++ exs, old.iov ++ ps, old.len + (exs.map (·.len)).sum⟩ ∧
    (extentBytes exs).length = (addresses ps).length ∧
    (extentBytes exs).zip (addresses ps) = target ∧
    (exs = [] ∧ ps = [] ∨ exs.length = 1 ∧ ps ≠ [])

theorem Gathered.close {old r p} (h : Gathered old target r p) :
    Appends old (closePart r p) target := by
  obtain ⟨ps, rfl, hlen, htarget, ⟨hnone, rfl⟩ | ⟨hoff, hpos⟩⟩ := h.pieces
  · have hzero : p.len = 0 := h.fresh hnone
    refine ⟨[], [], ?_, rfl, ?_, .inl ⟨rfl, rfl⟩⟩
    · rw [closePart, if_neg (by omega)]
      simp
    · rw [← htarget, hnone, hzero]
      simp [span_eq_nil]
  · refine ⟨[⟨p.offset, p.len⟩], ps, ?_, ?_, ?_, .inr ⟨rfl, ?_⟩⟩
    · rw [closePart, if_pos hoff]
      simp
    · rw [extentBytes_single, length_span, add_sub_cancel_left, ← hlen, Int.toNat_natCast]
    · rw [extentBytes_single]
      exact htarget
    · rintro rfl
      simp only [addresses_nil, length_nil, Nat.cast_zero] at hlen
      omega

/-- The loop over the stripes gathers the bytes of the row request for each device. -/
theorem lunRowDecompose_gathered {start rwlen}
    (h : InBuffer g nShift buffer start (start + rwlen - 1) bpos) (rwBuf : Nat → LunRwRow)
    (hi' : i < g.nDevices) :
    ∃ r p, lunRowDecompose g nShift buffer rwBuf start bpos rwlen i = closePart r p ∧
      Gathered (rwBuf i) (onDevice g nShift buffer start bpos (start + rwlen) i) r p := by
  have hs := stripeSize_pos g
  have hsome := h.some_bytes
  have hfirst : 0 ≤ start / g.stripeSize := Int.ediv_nonneg h.low hs.le
  have hbelow := Int.ediv_mul_le start hs.ne'
  have habove := Int.lt_ediv_add_one_mul_self (start + rwlen - 1) hs
  have hmono : start / g.stripeSize ≤ (start + rwlen - 1) / g.stripeSize :=
    Int.ediv_le_ediv hs hsome
  obtain ⟨n, hn⟩ : ∃ n : Nat,
      (start + rwlen - 1) / g.stripeSize + 1 = start / g.stripeSize + n :=
    ⟨((start + rwlen - 1) / g.stripeSize + 1 - start / g.stripeSize).toNat, by omega⟩
  have hstart : reached g start (start + rwlen - 1) (start / g.stripeSize) = start := by
    simp only [reached]
    omega
  have hend : reached g start (start + rwlen - 1) (start / g.stripeSize + n) = start + rwlen := by
    rw [← hn]
    simp only [reached]
    omega
  have hinit : ∀ j < g.nDevices, DeviceAt g nShift buffer start (start + rwlen - 1) bpos
      (start / g.stripeSize) (rwBuf j) j (rwBuf j) ⟨-1, 0⟩ := by
    intro j _
    refine ⟨⟨[], by simp, rfl, ?_, .inl ⟨rfl, rfl⟩⟩, fun hne => absurd rfl hne⟩
    rw [hstart, onDevice, paired_eq_nil le_rfl]
    simp [span_eq_nil]
  have hdone := (foldl_decomposeStripe (d := ⟨TbufVar.init, rwBuf, fun _ => ⟨-1, 0⟩⟩) h n hfirst
    (by omega) (TbufVar.valid_init buffer) hinit i hi').gathered
  rw [hend] at hdone
  refine ⟨_, _, ?_, hdone⟩
  simp only [lunRowDecompose, stripes, (h.stripe_fits hfirst hmono).1, hn]
  rw [if_pos hi']

/-- Each device request grows by the bytes of the row request that live on the device. -/
theorem lunRowDecompose_spec {start rwlen}
    (h : InBuffer g nShift buffer start (start + rwlen - 1) bpos)
    (rwBuf : Nat → LunRwRow) (hi' : i < g.nDevices) :
    Appends (rwBuf i) (lunRowDecompose g nShift buffer rwBuf start bpos rwlen i)
      (onDevice g nShift buffer start bpos (start + rwlen) i) := by
  obtain ⟨r, p, hclose, hgathered⟩ := lunRowDecompose_gathered h rwBuf hi'
  rw [hclose]
  exact hgathered.close

end LStore.Lun
