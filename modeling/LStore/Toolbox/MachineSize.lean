import LStore.Toolbox.TransferBuffer

/-!
# Transfer buffers in machine arithmetic

`tb_next_block` computes the end of a request as a `size_t`. The end of a request near the
top of that type wraps around, and the block can then claim more bytes than the buffer has
behind the position.
-/

namespace LStore.Toolbox

open List MachineInt

/-- The number of values of `size_t`. -/
def sizeValues : Nat := 2 ^ 64

/-- `tb_next_block`, with the end of the request as a `size_t`. -/
def tbNextBlockSize (tb : Tbuf) (pos : Nat) (tbv : TbufVar) : Option TbufVar :=
  tbNextBlockWith (· % sizeValues) tb pos tbv

variable {tb : Tbuf} {pos : Nat} {tbv : TbufVar}

theorem tbNextBlockSize_spec (pos : Nat) (htot : tb.totalBytes = totalLen tb.iov)
    (hfits : tb.totalBytes ≤ 2147483648) (hv : tbv.Valid tb) (hn : 1 ≤ tbv.nbytes)
    (hpos : pos < tb.totalBytes) :
    ∃ tbv', tbNextBlockSize tb pos tbv = some tbv' ∧ NextBlock tb pos tbv.nbytes tbv' := by
  refine tbNextBlockWith_spec _ (fun x => Nat.mod_le x _) (fun x hx => ?_) htot hfits hv hn hpos
  have hsize : sizeValues = 18446744073709551616 := rfl
  exact Nat.mod_eq_of_lt (by omega)

/-- A request for the rest of the buffer, or for more, inside its last piece, or at the
start of its only piece. -/
theorem tbNextBlockSize_last (pos : Nat) (htot : tb.totalBytes = totalLen tb.iov)
    (hfits : tb.totalBytes ≤ 2147483648) (hv : tbv.Valid tb) (hpos : pos < tb.totalBytes)
    (hlast : ∀ a ∈ starts 0 tb.iov, a = 0 ∨ a < pos) (hall : tb.totalBytes ≤ pos + tbv.nbytes)
    (hsize : pos = 0 → tbv.nbytes < sizeValues) :
    ∃ tbv', tbNextBlockSize tb pos tbv = some tbv' ∧ pos + tbv'.nbytes = tb.totalBytes := by
  obtain ⟨pre, v, post, hiov, hle, hlt, htotal, hrun⟩ :=
    locate (· % sizeValues) htot hfits hv hpos
  rw [tbNextBlockSize, hrun]
  split_ifs with hedge
  · have hmem := mem_starts 0 pre v post
    rw [Nat.zero_add, ← hiov] at hmem
    have hzero : pos = 0 := by
      have := hlast _ hmem
      omega
    rw [Nat.mod_eq_of_lt (by have := hsize hzero; omega), boundaryBlock, if_pos hall]
    refine ⟨_, rfl, ?_⟩
    dsimp only
    split <;> omega
  · rw [totalLen_cons] at htotal
    rw [middleBlock, sizeT_sub (by omega) (by omega)]
    refine ⟨_, rfl, ?_⟩
    dsimp only
    have hpost : totalLen post = 0 := by
      by_contra hmore
      have hmem := mem_starts_of_rest [v] hiov fun hnil => hmore (by rw [hnil]; rfl)
      rw [totalLen_cons, totalLen_nil] at hmem
      have := hlast _ hmem
      omega
    omega

end LStore.Toolbox
