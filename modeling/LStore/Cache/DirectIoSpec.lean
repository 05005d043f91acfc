import LStore.Cache.DirectIo
import LStore.Toolbox.TbufCopy
import Mathlib.Data.List.GetD

/-!
# What direct I/O transfers

The child takes the pages of a request from the first page buffer, then from the caller's
buffer up to the position where its last block ends, and then from the second page buffer.
That position decides what is transferred.
-/

namespace LStore.Cache.DirectIo

open ByteCopy Toolbox Segment Option Function DioTbuf

variable {fuel : Nat}

variable {tb : Tbuf} {pos nbytes : Int} {b : Block}

theorem valid_request (tb : Tbuf) (n : Int) :
    TbufVar.Valid tb { TbufVar.init with nbytes := n.toNat } :=
  ⟨Nat.zero_le _, rfl⟩

section

variable (htot : tb.totalBytes = Toolbox.totalLen tb.iov) (hfits : tb.totalBytes ≤ 2147483648)
include htot hfits

theorem tbufBlock_some (h0 : 0 ≤ pos) (hpos : pos < tb.totalBytes) (hn : 1 ≤ nbytes)
    (hb : tbufBlock tb pos nbytes = some b) : b = ⟨.tbuf, pos, b.nbytes⟩ ∧ 1 ≤ b.nbytes := by
  obtain ⟨tbv, hrun, hblock⟩ := tbNextBlockSize_spec pos.toNat htot hfits
    (valid_request tb nbytes) (show 1 ≤ nbytes.toNat by omega) (by omega)
  rw [tbufBlock, hrun, bind_some] at hb
  split at hb
  · cases hb
    exact ⟨rfl, Int.ofNat_le.mpr hblock.some_bytes⟩
  · cases hb

theorem tbufBlock_inside (h0 : 0 ≤ pos) (hn : 1 ≤ nbytes) (hin : pos + nbytes ≤ tb.totalBytes) :
    ∃ m, tbufBlock tb pos nbytes = some ⟨.tbuf, pos, m⟩ ∧ 1 ≤ m ∧ m ≤ nbytes ∧
      (m < nbytes → ∃ a ∈ starts 0 tb.iov, pos + m = a) := by
  obtain ⟨tbv, hrun, hblock⟩ := tbNextBlockSize_spec pos.toNat htot hfits
    (valid_request tb nbytes) (show 1 ≤ nbytes.toNat by omega) (by omega)
  have hall : pos.toNat + nbytes.toNat ≤ tb.totalBytes := by omega
  have hone := hblock.some_bytes
  have hle : tbv.nbytes ≤ nbytes.toNat := hblock.le hall
  have hcut : tbv.nbytes < nbytes.toNat → _ := hblock.cut hall
  refine ⟨tbv.nbytes, ?_, by omega, by omega, fun hlt => ⟨_, hcut (by omega), by omega⟩⟩
  rw [tbufBlock, hrun, bind_some, if_pos (by omega)]

theorem tbufBlock_last (h0 : 0 ≤ pos) (hpos : pos < tb.totalBytes)
    (hlast : ∀ a ∈ starts 0 tb.iov, a = 0 ∨ a < pos) (hall : tb.totalBytes ≤ pos + nbytes)
    (hsize : pos = 0 → nbytes < sizeValues) :
    tbufBlock tb pos nbytes = some ⟨.tbuf, pos, tb.totalBytes - pos⟩ := by
  obtain ⟨tbv, hrun, hend⟩ := tbNextBlockSize_last pos.toNat htot hfits (valid_request tb nbytes)
    (by omega) (fun a ha => by have := hlast a ha; omega)
    (show tb.totalBytes ≤ pos.toNat + nbytes.toNat by omega)
    (fun h => show nbytes.toNat < sizeValues by have := hsize (by omega); omega)
  rw [tbufBlock, hrun, bind_some, if_pos (by omega),
    show (tbv.nbytes : Int) = tb.totalBytes - pos by omega]

end

/-- The memory behind the buffers of a call, by position. -/
def atPositions (buf : Area → Tbuf) (phys : Area × Int → Byte) : Memory := fun area p =>
  phys (area, (addresses (buf area).iov).getD p.toNat 0)

/-- `tbx_tbuf_copy` between two buffers whose pieces do not overlap moves the bytes at their
positions. -/
theorem tbxTbufCopy_tbufCopy {buf : Area → Tbuf} {src dst : Area} (hne : src ≠ dst)
    (htot : ∀ a, (buf a).totalBytes = Toolbox.totalLen (buf a).iov)
    (hfits : ∀ a, (buf a).totalBytes ≤ 2147483648) (hnd : ∀ a, (addresses (buf a).iov).Nodup)
    {s d n : Int} (hs : 0 ≤ s ∧ s + n ≤ (buf src).totalBytes)
    (hd : 0 ≤ d ∧ d + n ≤ (buf dst).totalBytes) (hn : 0 ≤ n ∧ n < 2147483648)
    (phys : Area × Int → Byte) :
    ∃ phys', tbxTbufCopy (Prod.mk src) (Prod.mk dst) (buf src) s.toNat (buf dst) d.toNat n.toNat
        phys = some phys' ∧
      ∀ area (p : Int), 0 ≤ p → p < (buf area).totalBytes →
        atPositions buf phys' area p = tbufCopy (atPositions buf phys) src s dst d n area p := by
  refine ⟨_, tbxTbufCopy_spec (fun _ _ h => hne (Prod.mk.inj h).1) (htot src) (hfits src)
    (htot dst) (hfits dst) (by omega) (by omega) (by omega) phys, fun area p h0 hp => ?_⟩
  rw [tbufCopy, atPositions]
  by_cases harea : area = dst
  · subst harea
    have hlen := Toolbox.length_addresses (buf area).iov
    have htotal := htot area
    have hwhere (i : Nat) (hi : i < n.toNat) (heq : (addresses (buf area).iov).getD (d.toNat + i) 0 =
        (addresses (buf area).iov).getD p.toNat 0) : d + i = p := by
      rw [List.getD_eq_getElem _ _ (by omega), List.getD_eq_getElem _ _ (by omega)] at heq
      have := (hnd area).getElem_inj_iff.mp heq
      omega
    rw [update_self]
    by_cases hin : d ≤ p ∧ p < d + n
    · rw [copyBytes_inside hin]
      refine ByteSpan.writeAll_eq (List.mem_map.mpr ⟨(p - d).toNat, ?_, ?_⟩) (fun q hq heq => ?_) _
      · exact List.mem_range.mpr (by omega)
      · rw [atPositions, show d.toNat + (p - d).toNat = p.toNat by omega,
          show s.toNat + (p - d).toNat = (s + (p - d)).toNat by omega]
      · obtain ⟨i, hi, rfl⟩ := List.mem_map.mp hq
        have hpos := hwhere i (List.mem_range.mp hi) (Prod.mk.inj heq).2
        rw [atPositions, show s.toNat + i = (s + (p - d)).toNat by omega]
    · rw [copyBytes_outside hin]
      refine ByteSpan.writeAll_of_notMem (fun q hq heq => ?_) _
      obtain ⟨i, hi, rfl⟩ := List.mem_map.mp hq
      have hpos := hwhere i (List.mem_range.mp hi) (Prod.mk.inj heq).2
      have hi := List.mem_range.mp hi
      omega
  · rw [update_of_ne harea]
    refine ByteSpan.writeAll_of_notMem (fun q hq heq => ?_) _
    obtain ⟨i, -, rfl⟩ := List.mem_map.mp hq
    exact harea (Prod.mk.inj heq).1.symm

/-- The blocks of the caller's buffer from `b` up to `stop`, each asked for as
`dio_next_block` does when the request ends at `room`: where the last one ends. -/
def cutEnd (tb : Tbuf) (len room stop : Int) : Nat → Int → Option Int
  | 0, b => if stop ≤ b then some b else none
  | fuel + 1, b =>
    if stop ≤ b then some b
    else
      (tbufBlock tb b (askFor len b (room - b))).bind fun blk =>
        cutEnd tb len room stop fuel (b + blk.nbytes)

theorem one_le_askFor (len b : Int) {n} (h : 1 ≤ n) : 1 ≤ askFor len b n := by
  rw [askFor]
  omega

theorem cutEnd_ge {tb len room stop b e} (htot : tb.totalBytes = Toolbox.totalLen tb.iov)
    (hfits : tb.totalBytes ≤ 2147483648) (hin : stop ≤ tb.totalBytes) (hroom : stop ≤ room) (h0 : 0 ≤ b)
    (h : cutEnd tb len room stop fuel b = some e) : b ≤ e ∧ stop ≤ e := by
  induction fuel generalizing b with
  | zero =>
    rw [cutEnd] at h
    split at h
    · cases h
      exact ⟨le_rfl, ‹_›⟩
    · cases h
  | succ fuel ih =>
    rw [cutEnd] at h
    split at h
    · cases h
      exact ⟨le_rfl, ‹_›⟩
    · obtain ⟨blk, hblk, hrest⟩ := bind_eq_some_iff.mp h
      have hone := (tbufBlock_some htot hfits h0 (by omega) (one_le_askFor len b (by omega)) hblk).2
      have hnext := ih (by omega) hrest
      exact ⟨by omega, hnext.2⟩

/-- The request lies in a first page that is partial at its start. -/
def DioTbuf.LoOnly (d : DioTbuf) : Prop := 0 < d.loExtra ∧ d.loExtra + d.blen ≤ d.pageSize

instance (d : DioTbuf) : Decidable d.LoOnly := inferInstanceAs (Decidable (_ ∧ _))

/-- The position in the caller's buffer from which on its blocks are not used any more: the
end of the request, or the start of a partial last page. -/
def DioTbuf.stop (d : DioTbuf) : Int :=
  if d.hiExtra = 0 then d.tbufBpos + d.blen else d.tbufBpos + d.hiPstart - d.loExtra

/-- The position in the caller's buffer from which on its blocks are used. -/
def DioTbuf.first (d : DioTbuf) : Int := d.tbufBpos + d.c1 - d.loExtra

/-- Where the blocks of the caller's buffer end that a request uses. -/
def DioTbuf.reach (d : DioTbuf) : Option Int :=
  if d.LoOnly then some d.stop
  else cutEnd d.tbuf d.blen (d.tbufBpos + d.blen + d.hiExtra) d.stop d.blen.toNat d.first

/-- How the pages of a request and its buffer lie. -/
structure DioTbuf.Ok (d : DioTbuf) : Prop where
  lo : 0 ≤ d.loExtra ∧ d.loExtra < d.pageSize
  hi : 0 ≤ d.hiExtra ∧ d.hiExtra < d.pageSize
  len : 1 ≤ d.blen
  pages : d.hiPstart + d.pageSize = d.loExtra + d.blen + d.hiExtra
  pstart : d.hiPstart = 0 ∨ d.pageSize ≤ d.hiPstart
  bpos : 0 ≤ d.tbufBpos
  total : d.tbuf.totalBytes = Toolbox.totalLen d.tbuf.iov
  bytes : d.tbuf.totalBytes ≤ 2147483648
  room : d.tbufBpos + d.blen ≤ d.tbuf.totalBytes

theorem DioTbuf.Ok.stop_le {d : DioTbuf} (h : d.Ok) : d.stop ≤ d.tbufBpos + d.blen := by
  have hpages := h.pages
  have hhi := h.hi
  rw [stop]
  split <;> omega

theorem DioTbuf.Ok.loExtra_le_c1 {d : DioTbuf} (h : d.Ok) : d.loExtra ≤ d.c1 := by
  have hlo := h.lo
  rw [c1]
  split <;> omega

theorem DioTbuf.Ok.first_le_stop {d : DioTbuf} (h : d.Ok) (honly : ¬d.LoOnly) :
    d.first ≤ d.stop := by
  have hpages := h.pages
  have hlo := h.lo
  have hhi := h.hi
  have hlen := h.len
  have hpstart := h.pstart
  simp only [LoOnly, not_and, not_le] at honly
  rw [first, stop, c1]
  split_ifs <;> omega

variable {d : DioTbuf} {σ : Type} {move : Int → Block → σ → σ} {next : Int → Int → Option Block}

theorem transfer_done {pos nleft} (s : σ) (h : nleft ≤ 0) :
    transfer next move fuel pos nleft s = some s := by
  cases fuel <;> rw [transfer, if_pos h]

theorem transfer_step {pos nleft} (s : σ) (h : ¬nleft ≤ 0) :
    transfer next move (fuel + 1) pos nleft s =
      (next pos nleft).bind fun b =>
        transfer next move fuel (pos + b.nbytes) (nleft - b.nbytes) (move pos b s) := by
  rw [transfer, if_neg h]

/-- Moves of adjacent blocks are one move. -/
structure Joins (move : Int → Block → σ → σ) : Prop where
  empty : ∀ pos a start s, move pos ⟨a, start, 0⟩ s = s
  join : ∀ pos a start n m s, 0 ≤ n → 0 ≤ m →
    move (pos + n) ⟨a, start + n, m⟩ (move pos ⟨a, start, n⟩ s) = move pos ⟨a, start, n + m⟩ s

/-- What is left behind the caller's blocks is the end of the second page buffer. -/
def finish (d : DioTbuf) (move : Int → Block → σ → σ) (pos : Int) (s : σ) : σ :=
  if d.hiPstart + d.pageSize ≤ pos then s
  else move pos ⟨d.hiBuf, pos - d.hiPstart, d.hiPstart + d.pageSize - pos⟩ s

/-- The position of a byte of the caller's buffer in the pages of the request. -/
def DioTbuf.posOf (d : DioTbuf) (b : Int) : Int := b - d.tbufBpos + d.loExtra

theorem transfer_finish (h : d.Ok) {b nleft} (s : σ) (hlow : d.first ≤ b) (hstop : d.stop ≤ b)
    (hleft : d.posOf b + nleft = d.hiPstart + d.pageSize) (hfuel : nleft.toNat ≤ fuel) :
    transfer (dioNextBlock d) move fuel (d.posOf b) nleft s =
      some (finish d move (d.posOf b) s) := by
  have hpages := h.pages
  by_cases hdone : nleft ≤ 0
  · rw [transfer_done s hdone, finish, if_pos (by omega)]
  obtain ⟨fuel, rfl⟩ : ∃ k, fuel = k + 1 := ⟨fuel - 1, by omega⟩
  have hhi : d.hiExtra ≠ 0 := by
    intro hzero
    simp only [stop, if_pos hzero, posOf] at hstop hleft
    omega
  simp only [stop, if_neg hhi] at hstop
  have hpos : d.hiPstart ≤ d.posOf b := by
    simp only [posOf]
    omega
  have hc1 : ¬d.posOf b < d.c1 := by
    simp only [posOf, first] at hlow ⊢
    omega
  have hnext : dioNextBlock d (d.posOf b) nleft =
      some ⟨d.hiBuf, d.posOf b - d.hiPstart, d.hiPstart + d.pageSize - d.posOf b⟩ := by
    rw [dioNextBlock, if_neg hc1, if_neg (by omega), if_pos (by omega)]
    simp only [some.injEq, Block.mk.injEq, true_and]
    omega
  rw [transfer_step s hdone, hnext, bind_some, transfer_done _ (by dsimp only; omega), finish,
    if_neg (by omega)]

/-- From a byte of the caller's buffer on, its blocks are moved as one. -/
theorem transfer_tbuf (h : d.Ok) (hm : Joins move) (cuts : Nat) {b} (hlow : d.first ≤ b)
    (hcuts : (d.stop - b).toNat ≤ cuts) {nleft : Int} (s : σ)
    (hleft : d.posOf b + nleft = d.hiPstart + d.pageSize) (hfuel : nleft.toNat ≤ fuel) :
    transfer (dioNextBlock d) move fuel (d.posOf b) nleft s =
      (cutEnd d.tbuf d.blen (d.tbufBpos + d.blen + d.hiExtra) d.stop cuts b).map fun e =>
        finish d move (d.posOf e) (move (d.posOf b) ⟨.tbuf, b, e - b⟩ s) := by
  have hpages := h.pages
  have hroom := h.room
  have hbpos := h.bpos
  have hhi := h.hi
  have hc1 := h.loExtra_le_c1
  have hstop_le := h.stop_le
  induction cuts generalizing b fuel nleft s with
  | zero =>
    rw [cutEnd, if_pos (by omega), map_some, transfer_finish h s hlow (by omega) hleft hfuel,
      sub_self, hm.empty]
  | succ cuts ih =>
    by_cases hstop : d.stop ≤ b
    · rw [cutEnd, if_pos hstop, map_some, transfer_finish h s hlow hstop hleft hfuel,
        sub_self, hm.empty]
    have hbelow : d.posOf b < d.hiPstart ∨ d.hiExtra = 0 := by
      simp only [stop] at hstop
      split at hstop
      · exact .inr ‹_›
      · refine .inl ?_
        simp only [posOf]
        omega
    have hcut : ¬d.posOf b < d.c1 := by
      simp only [posOf, first] at hlow ⊢
      omega
    have hnleft : nleft = d.tbufBpos + d.blen + d.hiExtra - b := by
      simp only [posOf] at hleft
      omega
    obtain ⟨fuel, rfl⟩ : ∃ k, fuel = k + 1 := ⟨fuel - 1, by omega⟩
    have hnext : dioNextBlock d (d.posOf b) nleft =
        tbufBlock d.tbuf b (askFor d.blen b (d.tbufBpos + d.blen + d.hiExtra - b)) := by
      rw [dioNextBlock, if_neg hcut, if_pos hbelow, ← hnleft]
      simp only [posOf]
      rw [show d.tbufBpos + (b - d.tbufBpos + d.loExtra) - d.loExtra = b by omega]
    rw [transfer_step s (by omega), hnext, cutEnd, if_neg hstop]
    cases hblk : tbufBlock d.tbuf b (askFor d.blen b (d.tbufBpos + d.blen + d.hiExtra - b)) with
    | none => rfl
    | some blk =>
      have hfirst : 0 ≤ b := by
        omega
      obtain ⟨hat, hone⟩ :=
        tbufBlock_some h.total h.bytes hfirst (by omega) (one_le_askFor _ _ (by omega)) hblk
      obtain ⟨a, start, n⟩ := blk
      obtain ⟨rfl, rfl⟩ : a = .tbuf ∧ start = b := by
        simpa using hat
      simp only at hone
      simp only [bind_some]
      have hposOf : d.posOf start + n = d.posOf (start + n) := by
        simp only [posOf]
        omega
      rw [hposOf, ih (by omega) (by omega) _ (by omega) (by omega)]
      cases hcuts : cutEnd d.tbuf d.blen (d.tbufBpos + d.blen + d.hiExtra) d.stop cuts
          (start + n) with
      | none => rfl
      | some e =>
        have hge := cutEnd_ge h.total h.bytes (by omega) (by omega) (by omega) hcuts
        have hjoin := hm.join (d.posOf start) .tbuf start n (e - (start + n)) s (by omega)
          (by omega)
        rw [hposOf, show n + (e - (start + n)) = e - start by omega] at hjoin
        rw [map_some, map_some, hjoin]

/-- The moves of a request whose blocks of the caller's buffer end at `e`. -/
def stitched (d : DioTbuf) (move : Int → Block → σ → σ) (e : Int) (s : σ) : σ :=
  let s := if 0 < d.loExtra then move 0 ⟨.loBuf, 0, d.pageSize⟩ s else s
  if d.LoOnly then s
  else finish d move (d.posOf e) (move d.c1 ⟨.tbuf, d.first, e - d.first⟩ s)

theorem transfer_eq (h : d.Ok) (hm : Joins move) (s : σ) :
    transfer (dioNextBlock d) move (d.hiPstart + d.pageSize).toNat 0 (d.hiPstart + d.pageSize) s =
      d.reach.map fun e => stitched d move e s := by
  have hpages := h.pages
  have hlo := h.lo
  have hhi := h.hi
  have hpstart := h.pstart
  have hstop := h.stop_le
  by_cases hextra : 0 < d.loExtra
  · have hc1 : d.c1 = d.pageSize := if_pos hextra
    have hnext : dioNextBlock d 0 (d.hiPstart + d.pageSize) = some ⟨.loBuf, 0, d.pageSize⟩ := by
      rw [dioNextBlock, if_pos (by omega)]
      simp only [some.injEq, Block.mk.injEq, true_and]
      omega
    obtain ⟨fuel, hfuel⟩ : ∃ k, (d.hiPstart + d.pageSize).toNat = k + 1 :=
      ⟨(d.hiPstart + d.pageSize).toNat - 1, by omega⟩
    rw [hfuel, transfer_step s (by omega), hnext, bind_some]
    by_cases honly : d.LoOnly
    · have hone := honly.2
      rw [transfer_done _ (by dsimp only; omega), reach, if_pos honly, map_some,
        stitched, if_pos hextra, if_pos honly]
    · have hpos : (0 : Int) + d.pageSize = d.posOf d.first := by
        simp only [posOf, first]
        omega
      have hfirst : d.tbufBpos ≤ d.first := by
        simp only [first]
        omega
      dsimp only
      rw [hpos, transfer_tbuf h hm d.blen.toNat le_rfl (by omega) _ (by omega)
        (by omega), reach, if_neg honly]
      refine congrArg (fun f => Option.map f _) (funext fun e => ?_)
      rw [stitched, if_pos hextra, if_neg honly, ← hpos, hc1, zero_add]
  · have hc1 : d.c1 = 0 := if_neg hextra
    have honly : ¬d.LoOnly := fun honly => hextra honly.1
    have hpos : 0 = d.posOf d.first := by
      simp only [posOf, first]
      omega
    have hfirst : d.tbufBpos ≤ d.first := by
      simp only [first]
      omega
    rw [reach, if_neg honly]
    conv_lhs => rw [hpos]
    rw [transfer_tbuf h hm d.blen.toNat le_rfl (by omega) _ (by omega)
        (by omega)]
    refine congrArg (fun f => Option.map f _) (funext fun e => ?_)
    rw [stitched, if_neg hextra, if_neg honly, ← hpos, hc1]

theorem DioTbuf.Ok.reach_ge {d : DioTbuf} (h : d.Ok) {e : Int} (he : d.reach = some e) :
    d.stop ≤ e ∧ (d.LoOnly → e = d.stop) ∧ (¬d.LoOnly → d.first ≤ e) := by
  rw [reach] at he
  split at he
  · cases he
    exact ⟨le_rfl, fun _ => rfl, fun honly => absurd ‹d.LoOnly› honly⟩
  · have hroom := h.room
    have hbpos := h.bpos
    have hstop := h.stop_le
    have hc1 := h.loExtra_le_c1
    have hhi := h.hi
    have hge := cutEnd_ge h.total h.bytes (by omega) (by omega) (by simp only [first]; omega) he
    exact ⟨hge.2, fun honly => absurd honly ‹¬d.LoOnly›, fun _ => hge.1⟩

variable {mem : Memory} {off : Int} {child : Int → Byte}

theorem writeMove_mk (mem : Memory) (off pos : Int) (a : Area) (start n : Int)
    (child : Int → Byte) :
    writeMove mem off pos ⟨a, start, n⟩ child = copyBytes (mem a) start child (off + pos) n := rfl

theorem joins_write (mem : Memory) (off : Int) : Joins (writeMove mem off) where
  empty pos a start s := copyBytes_empty _ _ _ _ le_rfl
  join pos a start n m s hn hm := by
    rw [writeMove_mk, writeMove_mk, writeMove_mk, ← add_assoc]
    exact copyBytes_join _ _ _ _ hn hm

/-- The partial pages in the page buffers, with the bytes of the caller. -/
structure Merged (d : DioTbuf) (off : Int) (child : Int → Byte) (mem : Memory) : Prop where
  lo : 0 < d.loExtra → ∀ x, off ≤ x → x < off + d.pageSize →
    mem .loBuf (x - off) = copyBytes (mem .tbuf) d.tbufBpos child (off + d.loExtra) d.blen x
  hi : 0 < d.hiExtra → ¬d.LoOnly → ∀ x, off + d.hiPstart ≤ x →
    x < off + d.hiPstart + d.pageSize →
    mem d.hiBuf (x - (off + d.hiPstart)) =
      copyBytes (mem .tbuf) d.tbufBpos child (off + d.loExtra) d.blen x

theorem stitched_loOnly (hmem : Merged d off child mem) (honly : d.LoOnly) {e}
    (he : e ≤ d.tbufBpos + d.blen) :
    stitched d (writeMove mem off) e child =
      copyBytes (mem .tbuf) d.tbufBpos child (off + d.loExtra) (max d.blen (e - d.tbufBpos)) := by
  obtain ⟨hextra, hone⟩ := honly
  rw [stitched, if_pos hextra, if_pos ⟨hextra, hone⟩, max_eq_left (by omega), writeMove_mk]
  funext x
  by_cases hin : off + 0 ≤ x ∧ x < off + 0 + d.pageSize
  · rw [copyBytes_inside hin, ← hmem.lo hextra x (by omega) (by omega)]
    congr 1
    omega
  · rw [copyBytes_outside hin, copyBytes_outside (by omega)]

theorem stitched_write (h : d.Ok) (hmem : Merged d off child mem) (honly : ¬d.LoOnly) {e : Int}
    (hstop : d.stop ≤ e) (hfirst : d.first ≤ e) :
    stitched d (writeMove mem off) e child =
      copyBytes (mem .tbuf) d.tbufBpos child (off + d.loExtra) (max d.blen (e - d.tbufBpos)) := by
  have hpages := h.pages
  have hlo := h.lo
  have hhi := h.hi
  have hlen := h.len
  have hc1 := h.loExtra_le_c1
  have hposOf : d.posOf e = e - d.tbufBpos + d.loExtra := rfl
  have hfirst_eq : d.first = d.tbufBpos + d.c1 - d.loExtra := rfl
  have huser_len : 0 ≤ e - d.first := sub_nonneg.mpr hfirst
  rw [stitched, if_neg honly]
  funext x
  by_cases hlast : off + d.posOf e ≤ x ∧ x < off + (d.hiPstart + d.pageSize)
  · have hextra : d.hiExtra ≠ 0 := by
      intro hzero
      rw [stop, if_pos hzero] at hstop
      omega
    rw [stop, if_neg hextra] at hstop
    have hpage := hmem.hi (by omega) honly x (by omega) (by omega)
    rw [finish, if_neg (by omega), writeMove_mk, copyBytes_inside (by omega)]
    rw [show d.posOf e - d.hiPstart + (x - (off + d.posOf e)) = x - (off + d.hiPstart) by omega,
      hpage]
    exact copyBytes_congr (by omega) rfl rfl
  have hfinish (c : Int → Byte) : finish d (writeMove mem off) (d.posOf e) c x = c x := by
    rw [finish]
    split
    · rfl
    · rw [writeMove_mk]
      exact copyBytes_outside (by omega)
  rw [hfinish, writeMove_mk, writeMove_mk]
  by_cases huser : off + d.c1 ≤ x ∧ x < off + d.c1 + (e - d.first)
  · rw [copyBytes_inside huser, copyBytes_inside (by omega)]
    congr 1
    omega
  rw [copyBytes_outside huser]
  by_cases hextra : 0 < d.loExtra
  · have hpage : d.c1 = d.pageSize := if_pos hextra
    have hmore : d.pageSize < d.loExtra + d.blen := by
      simp only [DioTbuf.LoOnly] at honly
      omega
    rw [if_pos hextra]
    by_cases hin : off + 0 ≤ x ∧ x < off + 0 + d.pageSize
    · rw [copyBytes_inside hin, show 0 + (x - (off + 0)) = x - off by omega,
        hmem.lo hextra x (by omega) (by omega)]
      exact copyBytes_congr (by omega) rfl rfl
    · rw [copyBytes_outside hin, copyBytes_outside (by omega)]
  · have hpage : d.c1 = 0 := if_neg hextra
    rw [if_neg hextra, copyBytes_outside (by omega)]

/-- A write changes the bytes of the request, and behind it those up to the end of the
blocks of the caller's buffer. -/
theorem segmentWrite_eq (h : d.Ok) (hmem : Merged d off child mem) :
    segmentWrite (dioNextBlock d) mem off (d.hiPstart + d.pageSize) child =
      d.reach.map fun e =>
        copyBytes (mem .tbuf) d.tbufBpos child (off + d.loExtra) (max d.blen (e - d.tbufBpos)) := by
  rw [segmentWrite, transfer_eq h (joins_write mem off)]
  cases hreach : d.reach with
  | none => rfl
  | some e =>
    obtain ⟨hstop, hat, hfirst⟩ := h.reach_ge hreach
    rw [map_some, map_some]
    congr 1
    by_cases honly : d.LoOnly
    · exact stitched_loOnly hmem honly (by rw [hat honly]; exact h.stop_le)
    · exact stitched_write h hmem honly hstop (hfirst honly)

/-- The page buffers of a write to one page. -/
theorem merged_one_page (mem : Memory) (h : d.Ok) (hbuf : d.hiBuf = .loBuf)
    (hone : d.hiPstart = 0)
    (hmem : d.loExtra ≠ 0 ∨ d.hiExtra ≠ 0 → ∀ x, off ≤ x → x < off + d.pageSize →
      mem .loBuf (x - off) = child x) :
    Merged d off child (dioWriteMerge d mem) ∧ dioWriteMerge d mem .tbuf = mem .tbuf := by
  have hpages := h.pages
  have hlo := h.lo
  have hhi := h.hi
  have hpatch (src : Int → Byte) (hload : d.loExtra ≠ 0 ∨ d.hiExtra ≠ 0) (x : Int) (hle : off ≤ x)
      (hlt : x < off + d.pageSize) :
      copyBytes src d.tbufBpos (mem .loBuf) d.loExtra d.blen (x - off) =
        copyBytes src d.tbufBpos child (off + d.loExtra) d.blen x :=
    copyBytes_congr (by omega) (by omega) (hmem hload x hle hlt)
  by_cases hextra : 0 < d.loExtra
  · have honly : d.LoOnly := ⟨hextra, by omega⟩
    have hrun : dioWriteMerge d mem =
        tbufCopy mem .tbuf d.tbufBpos .loBuf d.loExtra d.blen := if_pos honly
    rw [hrun]
    refine ⟨⟨fun _ x hle hlt => ?_, fun _ hnot => absurd honly hnot⟩, ?_⟩
    · exact hpatch _ (.inl (by omega)) x hle hlt
    · simp [tbufCopy]
  · have honly : ¬d.LoOnly := fun honly => hextra honly.1
    have hzero : d.loExtra = 0 := by omega
    by_cases hlast : 0 < d.hiExtra
    · have hrun : dioWriteMerge d mem =
          tbufCopy mem .tbuf d.tbufBpos .loBuf d.loExtra d.blen := by
        rw [dioWriteMerge, dioMerge, if_neg (show ¬(_ ∧ _) from honly)]
        simp only [if_pos hlast, hbuf, hone, hzero]
        congr 1 <;> omega
      rw [hrun]
      refine ⟨⟨fun hlo' => absurd hlo' hextra, fun _ _ x hle hlt => ?_⟩, ?_⟩
      · rw [hbuf, hone, add_zero]
        exact hpatch _ (.inr (by omega)) x (by omega) (by omega)
      · simp [tbufCopy]
    · have hrun : dioWriteMerge d mem = mem := by
        rw [dioWriteMerge, dioMerge, if_neg (show ¬(_ ∧ _) from honly)]
        simp [if_neg hextra, if_neg hlast]
      rw [hrun]
      exact ⟨⟨fun hlo' => absurd hlo' hextra, fun hhi' => absurd hhi' hlast⟩, rfl⟩

/-- The page buffers of a write to several pages. -/
theorem merged_pages (h : d.Ok) (hbuf : d.hiBuf = .hiBuf) (hmore : d.pageSize ≤ d.hiPstart)
    (hload : 0 < d.loExtra → ∀ x, off ≤ x → x < off + d.pageSize → mem .loBuf (x - off) = child x)
    (hload' : 0 < d.hiExtra → ∀ x, off + d.hiPstart ≤ x → x < off + d.hiPstart + d.pageSize →
      mem .hiBuf (x - (off + d.hiPstart)) = child x) :
    Merged d off child (dioWriteMerge d mem) ∧ dioWriteMerge d mem .tbuf = mem .tbuf := by
  have hpages := h.pages
  have hlo := h.lo
  have hhi := h.hi
  have honly : ¬d.LoOnly := by
    simp only [DioTbuf.LoOnly]
    omega
  have hrun : dioWriteMerge d mem = fun a =>
      match a with
      | .tbuf => mem .tbuf
      | .loBuf =>
        if 0 < d.loExtra then
          copyBytes (mem .tbuf) d.tbufBpos (mem .loBuf) d.loExtra (d.pageSize - d.loExtra)
        else mem .loBuf
      | .hiBuf =>
        if 0 < d.hiExtra then
          copyBytes (mem .tbuf) (d.tbufBpos + (d.hiPstart - d.loExtra)) (mem .hiBuf) 0
            (d.loExtra + d.blen - d.hiPstart)
        else mem .hiBuf := by
    rw [dioWriteMerge, dioMerge, if_neg (show ¬(_ ∧ _) from honly)]
    simp only [hbuf, tbufCopy,
      show d.blen - (d.loExtra + d.blen - d.hiPstart) = d.hiPstart - d.loExtra by omega]
    funext a
    cases a <;> split <;> split <;> simp [update]
  rw [hrun]
  refine ⟨⟨fun hextra x hle hlt => ?_, fun hextra _ x hle hlt => ?_⟩, rfl⟩
  · simp only [if_pos hextra]
    exact copyBytes_congr (by omega) (by omega) (hload hextra x hle hlt)
  · simp only [hbuf, if_pos hextra]
    exact copyBytes_congr (by omega) (by omega) (hload' hextra x hle hlt)

variable {e : Int}

theorem readMove_mk (child : Int → Byte) (off pos : Int) (a : Area) (start n : Int) (mem : Memory) :
    readMove child off pos ⟨a, start, n⟩ mem =
      Function.update mem a (copyBytes child (off + pos) (mem a) start n) := rfl

theorem joins_read (child : Int → Byte) (off : Int) : Joins (readMove child off) where
  empty pos a start s := by
    rw [readMove_mk, copyBytes_empty _ _ _ _ le_rfl, update_eq_self]
  join pos a start n m s hn hm := by
    simp only [readMove_mk, update_self, update_idem]
    rw [← add_assoc, copyBytes_join _ _ _ _ hn hm]

/-- What a read at `lo` puts into the caller's memory when the blocks of the caller's buffer end at
`e`: what stood in the second page buffer is copied over the part of a partial last page
that went past it. -/
def DioTbuf.readResult (d : DioTbuf) (lo : Int) (child junk user : Int → Byte) (e : Int) :
    Int → Byte :=
  copyBytes junk 0 (copyBytes child lo user d.tbufBpos (max d.blen (e - d.tbufBpos))) d.stop
    (min (d.tbufBpos + d.blen - d.stop) (e - d.stop))

theorem readMerge_loOnly (honly : d.LoOnly) :
    dioReadMerge d (stitched d (readMove child off) d.stop mem) .tbuf =
      copyBytes child (off + d.loExtra) (mem .tbuf) d.tbufBpos d.blen := by
  obtain ⟨hextra, hone⟩ := honly
  rw [stitched, if_pos hextra, if_pos ⟨hextra, hone⟩, dioReadMerge, dioMerge,
    if_pos ⟨hextra, hone⟩, tbufCopy, update_self, readMove_mk, update_self, update_of_ne (by decide)]
  funext y
  by_cases hin : d.tbufBpos ≤ y ∧ y < d.tbufBpos + d.blen
  · rw [copyBytes_inside hin, copyBytes_inside (by omega), copyBytes_inside hin]
    congr 1
    omega
  · rw [copyBytes_outside hin, copyBytes_outside hin]

/-- The memory of a read that goes beyond the first page, before the merge. -/
theorem stitched_read (hbuf : d.hiBuf = .hiBuf) (honly : ¬d.LoOnly) :
    stitched d (readMove child off) e mem = fun a =>
      match a with
      | .loBuf =>
        if 0 < d.loExtra then copyBytes child off (mem .loBuf) 0 d.pageSize else mem .loBuf
      | .tbuf => copyBytes child (off + d.c1) (mem .tbuf) d.first (e - d.first)
      | .hiBuf =>
        if d.hiPstart + d.pageSize ≤ d.posOf e then mem .hiBuf
        else
          copyBytes child (off + d.posOf e) (mem .hiBuf) (d.posOf e - d.hiPstart)
            (d.hiPstart + d.pageSize - d.posOf e) := by
  rw [stitched, if_neg honly, finish]
  simp only [readMove_mk, hbuf, add_zero]
  funext a
  cases a <;> split <;> split <;> simp [update]

theorem readMerge_eq (hbuf : d.hiBuf = .hiBuf) (honly : ¬d.LoOnly) (mem : Memory) :
    dioReadMerge d mem .tbuf =
      let user :=
        if 0 < d.loExtra then
          copyBytes (mem .loBuf) d.loExtra (mem .tbuf) d.tbufBpos (d.pageSize - d.loExtra)
        else mem .tbuf
      if 0 < d.hiExtra then
        copyBytes (mem .hiBuf) 0 user (d.tbufBpos + d.hiPstart - d.loExtra)
          (d.loExtra + d.blen - d.hiPstart)
      else user := by
  rw [dioReadMerge, dioMerge, if_neg (show ¬(_ ∧ _) from honly)]
  simp only [hbuf, tbufCopy,
    show d.tbufBpos + (d.blen - (d.loExtra + d.blen - d.hiPstart)) =
      d.tbufBpos + d.hiPstart - d.loExtra by omega]
  split <;> split <;> simp [update]

theorem readMerge_stitched (h : d.Ok) (hbuf : d.hiBuf = .hiBuf) (honly : ¬d.LoOnly)
    (hstop : d.stop ≤ e) (hfirst : d.first ≤ e) :
    dioReadMerge d (stitched d (readMove child off) e mem) .tbuf =
      d.readResult (off + d.loExtra) child (mem .hiBuf) (mem .tbuf) e := by
  have hpages := h.pages
  have hlo := h.lo
  have hhi := h.hi
  have hc1 := h.loExtra_le_c1
  have hposOf : d.posOf e = e - d.tbufBpos + d.loExtra := rfl
  have hfirst_eq : d.first = d.tbufBpos + d.c1 - d.loExtra := rfl
  rw [readMerge_eq hbuf honly, stitched_read hbuf honly, readResult]
  have huser : (if 0 < d.loExtra then
        copyBytes (if 0 < d.loExtra then copyBytes child off (mem .loBuf) 0 d.pageSize
          else mem .loBuf) d.loExtra
          (copyBytes child (off + d.c1) (mem .tbuf) d.first (e - d.first)) d.tbufBpos
          (d.pageSize - d.loExtra)
      else copyBytes child (off + d.c1) (mem .tbuf) d.first (e - d.first)) =
      copyBytes child (off + d.loExtra) (mem .tbuf) d.tbufBpos (e - d.tbufBpos) := by
    by_cases hextra : 0 < d.loExtra
    · have hpage : d.c1 = d.pageSize := if_pos hextra
      rw [if_pos hextra, if_pos hextra]
      funext y
      by_cases hin : d.tbufBpos ≤ y ∧ y < d.tbufBpos + (d.pageSize - d.loExtra)
      · rw [copyBytes_inside hin, copyBytes_inside (by omega), copyBytes_inside (by omega)]
        congr 1
        omega
      · rw [copyBytes_outside hin]
        by_cases hin' : d.first ≤ y ∧ y < d.first + (e - d.first)
        · rw [copyBytes_inside hin', copyBytes_inside (by omega)]
          congr 1
          omega
        · rw [copyBytes_outside hin', copyBytes_outside (by omega)]
    · have hpage : d.c1 = 0 := if_neg hextra
      rw [if_neg hextra, show off + d.c1 = off + d.loExtra by omega,
        show d.first = d.tbufBpos by omega]
  simp only [huser]
  by_cases hextra : 0 < d.hiExtra
  · have hstop_eq : d.stop = d.tbufBpos + d.hiPstart - d.loExtra := if_neg (by omega)
    rw [if_pos hextra]
    funext y
    by_cases hlast : d.tbufBpos + d.hiPstart - d.loExtra ≤ y ∧
        y < d.tbufBpos + d.hiPstart - d.loExtra + (d.loExtra + d.blen - d.hiPstart)
    · rw [copyBytes_inside hlast]
      by_cases hjunk : y < e
      · rw [copyBytes_inside (by omega)]
        split
        · rw [hstop_eq]
        · rw [copyBytes_outside (by omega), hstop_eq]
      · rw [copyBytes_outside (by omega), if_neg (by omega), copyBytes_inside (by omega),
          copyBytes_inside (by omega)]
        congr 1
        omega
    · rw [copyBytes_outside hlast]
      by_cases hin : d.tbufBpos ≤ y ∧ y < d.tbufBpos + (e - d.tbufBpos)
      · rw [copyBytes_inside hin, copyBytes_outside (by omega), copyBytes_inside (by omega)]
      · rw [copyBytes_outside hin, copyBytes_outside (by omega), copyBytes_outside (by omega)]
  · have hstop_eq : d.stop = d.tbufBpos + d.blen := if_pos (by omega)
    have hempty : min (d.tbufBpos + d.blen - d.stop) (e - d.stop) ≤ 0 := by omega
    rw [if_neg hextra, copyBytes_empty (mem .hiBuf) _ _ _ hempty, max_eq_right (by omega)]

/-- A read fills the bytes of the request, and behind it those up to the end of the blocks
of the caller's buffer. -/
theorem segmentRead_eq (h : d.Ok) (hbuf : d.hiBuf = .hiBuf) (child : Int → Byte) (off : Int)
    (mem : Memory) :
    ((segmentRead (dioNextBlock d) child off (d.hiPstart + d.pageSize) mem).map
        fun mem => dioReadMerge d mem .tbuf) =
      d.reach.map (d.readResult (off + d.loExtra) child (mem .hiBuf) (mem .tbuf)) := by
  rw [segmentRead, transfer_eq h (joins_read child off)]
  cases hreach : d.reach with
  | none => rfl
  | some e =>
    obtain ⟨hstop, hat, hfirst⟩ := h.reach_ge hreach
    rw [map_some, map_some, map_some]
    congr 1
    by_cases honly : d.LoOnly
    · have hle := h.stop_le
      rw [hat honly, readMerge_loOnly honly, readResult, sub_self,
        copyBytes_empty _ _ _ _ (min_le_right _ _), max_eq_left (by omega)]
    · exact readMerge_stitched h hbuf honly hstop (hfirst honly)

end LStore.Cache.DirectIo
