import LStore.Jerasure.ReadWrite
import LStore.Toolbox.TbufCopy
import Mathlib.Data.List.GetD

/-!
# Requests for whole stripes

A request is well formed when its ranges are whole stripes and its buffer has room for them.
The stripes of its ranges then lie one after another in the buffer, each in one piece of
memory or in several.
-/

namespace LStore.Jerasure

open Segment (ExIovec)
open Toolbox (Tbuf TbufVar addresses totalLen IsBlock tbxTbufCopy tbxTbufSingle
  tbxTbufCopy_spec getD_addresses_single)
open ByteSpan MachineInt

variable {n m cs : Nat}

theorem mul_add_inj {d x x' t t' : Nat} (hx : x < d) (hx' : x' < d)
    (h : t * d + x = t' * d + x') : t = t' ∧ x = x' := by
  have ht : t = t' := by
    have hdiv := congrArg (· / d) h
    have hpos : 0 < d := by omega
    simpa [add_comm, Nat.add_mul_div_right _ _ hpos, Nat.div_eq_of_lt hx,
      Nat.div_eq_of_lt hx'] using hdiv
  subst ht
  exact ⟨rfl, by omega⟩

/-- A chunk is on its device. -/
theorem exists_mem_mod {d : Nat} {devs : Finset (Fin d)} (c : Nat) (k : Fin d) :
    (∃ j ∈ devs, j.val = (c * d + k.val) % d) ↔ k ∈ devs := by
  rw [Nat.add_comm, Nat.add_mul_mod_self_right, Nat.mod_eq_of_lt k.isLt]
  constructor
  · rintro ⟨j, hj, heq⟩
    rwa [← Fin.ext heq]
  · exact fun hk => ⟨k, hk, rfl⟩

theorem mul_add_lt {a b i j : Nat} (hi : i < a) (hj : j < b) : i * b + j < a * b :=
  calc i * b + j < i * b + b := by omega
    _ = (i + 1) * b := by rw [Nat.succ_mul]
    _ ≤ a * b := Nat.mul_le_mul_right b hi

/-- The operations that are done stay the same when one more is under way. -/
theorem queue_concat {queue : List Nat} {i} (hnd : queue.Nodup) (hlt : ∀ j ∈ queue, j < i) :
    (queue ++ [i]).Nodup ∧ ∀ j, (j < i + 1 ∧ j ∉ queue ++ [i]) ↔ (j < i ∧ j ∉ queue) := by
  constructor
  · rw [List.nodup_append]
    refine ⟨hnd, List.nodup_singleton _, fun a ha b hb => ?_⟩
    have := hlt a ha
    rw [List.mem_singleton] at hb
    omega
  · intro j
    simp only [List.mem_append, List.mem_singleton, not_or]
    exact ⟨fun ⟨hj, hq, hne⟩ => ⟨by omega, hq⟩, fun ⟨hj, hq⟩ => ⟨by omega, hq, by omega⟩⟩

/-- A loop over the ranges is at the range its rest begins with. -/
theorem getElem?_of_drop {α : Type*} {xs vs : List α} {v : α} {i} (h : xs.drop i = v :: vs) :
    xs[i]? = some v ∧ xs.drop (i + 1) = vs := by
  constructor
  · rw [← add_zero i, ← List.getElem?_drop, h]
    rfl
  · rw [← List.drop_drop, h]
    rfl

theorem Loc.add_add (p : Loc) (i j : Nat) : (p.add i).add j = p.add (i + j) := by
  cases p with
  | user a => simp [Loc.add, add_assoc]
  | straddle b x => simp [Loc.add, add_assoc]
  | parity x => simp [Loc.add, add_assoc]

theorem mem_chunkWrites {p c w} : w ∈ chunkWrites p c ↔ ∃ i : Fin cs, w = (p.add i.val, c i) := by
  simp [chunkWrites, eq_comm]

section

variable {ι : Type*} {l : List ι} {base : ι → Loc} {c : ι → Chunk cs} {mem : Mem}

theorem writeChunks_outside {a} (h : ∀ k ∈ l, ∀ x < cs, (base k).add x ≠ a) :
    writeAll (l.flatMap fun k => chunkWrites (base k) (c k)) mem a = mem a := by
  apply writeAll_of_notMem
  intro p hp
  obtain ⟨k, hk, hpk⟩ := List.mem_flatMap.mp hp
  obtain ⟨x, rfl⟩ := mem_chunkWrites.mp hpk
  exact h k hk x x.isLt

theorem writeChunks_at {k} (hk : k ∈ l)
    (h : ∀ k' ∈ l, ∀ x' x : Fin cs, (base k').add x' = (base k).add x → c k' x' = c k x) :
    chunkAt (writeAll (l.flatMap fun k => chunkWrites (base k) (c k)) mem) (base k) = c k := by
  funext x
  refine writeAll_eq (List.mem_flatMap.mpr ⟨k, hk, mem_chunkWrites.mpr ⟨x, rfl⟩⟩) ?_ mem
  intro p hp heq
  obtain ⟨k', hk', hpk⟩ := List.mem_flatMap.mp hp
  obtain ⟨x', rfl⟩ := mem_chunkWrites.mp hpk
  exact h k' hk' x' x heq

end

/-- The data of the stripe at position `pos` of the caller's buffer. -/
def stripeData (n cs : Nat) (buffer : Tbuf) (mem : Mem) (pos : Nat) : Fin n → Chunk cs :=
  fun i j => mem (bufferLoc buffer (pos + (i.val * cs + j.val)))

theorem stripeBases_data (base : Loc) (parity : Nat) (i : Fin n) :
    stripeBases n m cs base parity (Fin.castAdd m i) = base.add (i.val * cs) :=
  if_pos i.isLt

theorem stripeBases_parity (base : Loc) (parity : Nat) (j : Fin m) :
    stripeBases n m cs base parity (Fin.natAdd n j) = .parity (parity + j.val * cs) := by
  rw [stripeBases, if_neg (by simp)]
  simp

variable {q : RwReq} {i j : Nat} {v w : ExIovec}

/-- The position in the buffer of the `i`-th range. -/
def RwReq.posAt (q : RwReq) (n cs i : Nat) : Nat :=
  q.boff + ((q.iov.take i).map (nstripes n cs)).sum * (n * cs)

/-- The ranges are whole stripes, the buffer holds them, and what is counted in an `int` fits:
positions in the buffer, the length of an operation on the child and the parity bytes. -/
structure RwReq.Fits (n m cs : Nat) (q : RwReq) : Prop where
  total : q.buffer.totalBytes = totalLen q.buffer.iov
  whole : ∀ v ∈ q.iov, 0 ≤ v.offset ∧ 0 ≤ v.len ∧
    ((n * cs : Nat) : Int) ∣ v.offset ∧ ((n * cs : Nat) : Int) ∣ v.len
  room : q.posAt n cs q.iov.length ≤ q.buffer.totalBytes
  bytes : q.buffer.totalBytes ≤ 2147483648
  lens : ∀ v ∈ q.iov,
    (v.len / ((n * cs : Nat) : Int)).toNat * stripeSizeWithMagic n m cs < 2147483648
  parity : (q.iov.map (nstripes n cs)).sum * (m * cs) < 2147483648

/-- Each byte of the buffer has its own address as well. -/
structure RwReq.Ok (n m cs : Nat) (q : RwReq) : Prop extends RwReq.Fits n m cs q where
  nodup : (addresses q.buffer.iov).Nodup

theorem RwReq.posAt_zero (q : RwReq) (n cs : Nat) : q.posAt n cs 0 = q.boff := by
  simp [RwReq.posAt]

theorem RwReq.posAt_succ (hv : q.iov[i]? = some v) :
    q.posAt n cs (i + 1) = q.posAt n cs i + nstripes n cs v * (n * cs) := by
  rw [RwReq.posAt, RwReq.posAt, List.take_add_one, hv]
  simp [add_mul, add_assoc]

theorem RwReq.posAt_le (q : RwReq) (n cs : Nat) (h : i ≤ j) : q.posAt n cs i ≤ q.posAt n cs j := by
  induction h with
  | refl => exact le_rfl
  | @step j _ ih =>
    cases hv : q.iov[j]? with
    | some v =>
      rw [RwReq.posAt_succ hv]
      omega
    | none =>
      have hlen := List.getElem?_eq_none_iff.mp hv
      refine le_trans ih (le_of_eq ?_)
      rw [RwReq.posAt, RwReq.posAt, List.take_of_length_le hlen,
        List.take_of_length_le (Nat.le_succ_of_le hlen)]

/-- The part of a range ends before the parts of later ranges. -/
theorem RwReq.posAt_before (hv : q.iov[i]? = some v) (h : i < j) :
    q.posAt n cs i + nstripes n cs v * (n * cs) ≤ q.posAt n cs j := by
  rw [← RwReq.posAt_succ hv]
  exact q.posAt_le n cs h

theorem RwReq.Fits.room_at (hq : q.Fits n m cs) (hv : q.iov[i]? = some v) :
    q.posAt n cs i + nstripes n cs v * (n * cs) ≤ (addresses q.buffer.iov).length := by
  have hlt : i < q.iov.length := (List.getElem?_eq_some_iff.mp hv).1
  have hroom := hq.room
  rw [hq.total, ← Toolbox.length_addresses] at hroom
  exact le_trans (RwReq.posAt_before hv hlt) hroom

/-- The number of stripes of a range fits. -/
theorem RwReq.Fits.nstripes_eq (hq : q.Fits n m cs) (hv : v ∈ q.iov) :
    nstripes n cs v = (v.len / ((n * cs : Nat) : Int)).toNat := by
  obtain ⟨-, hlen, -⟩ := hq.whole v hv
  have hbound := hq.lens v hv
  rw [nstripes]
  rcases Nat.eq_zero_or_pos (n * cs) with hzero | hpos
  · simp [hzero, i32]
  · have hquot : 0 ≤ v.len / ((n * cs : Nat) : Int) := Int.ediv_nonneg hlen (by omega)
    have hone : 1 ≤ stripeSizeWithMagic n m cs :=
      Nat.mul_pos (Nat.add_pos_left (Nat.pos_of_mul_pos_right hpos) m) (by omega)
    have hle := Nat.le_mul_of_pos_right (v.len / ((n * cs : Nat) : Int)).toNat hone
    rw [i32_eq_self (by omega) (by omega)]

/-- The child's operation on a range covers all of its cells. -/
theorem RwReq.Fits.childCells_eq (hq : q.Fits n m cs) (hv : v ∈ q.iov) :
    childCells n m cs (nstripes n cs v) = nstripes n cs v * (n + m) := by
  have hbound := hq.lens v hv
  rw [← hq.nstripes_eq hv] at hbound
  rw [childCells, i32_natCast hbound, stripeSizeWithMagic, ← Nat.mul_assoc, Int.natCast_mul,
    Int.mul_ediv_cancel _ (by omega), Int.toNat_natCast]

theorem RwReq.Fits.toNat_len (hq : q.Fits n m cs) (hv : v ∈ q.iov) :
    v.len.toNat = nstripes n cs v * (n * cs) := by
  rw [hq.nstripes_eq hv]
  obtain ⟨-, hlen, -, c, hc⟩ := hq.whole v hv
  rw [hc]
  rcases Nat.eq_zero_or_pos (n * cs) with hzero | hpos
  · simp [hzero]
  · rw [Int.mul_ediv_cancel_left _ (by omega)]
    have hc0 : 0 ≤ c := by
      by_contra hneg
      have := Int.mul_neg_of_pos_of_neg (show (0 : Int) < ((n * cs : Nat) : Int) by omega)
        (show c < 0 by omega)
      omega
    rw [Int.toNat_mul (by omega) hc0, Nat.mul_comm]
    rfl

variable {tb : Tbuf} {pos size : Nat} {tbv : TbufVar}

/-- The block found for a stripe inside the buffer. -/
theorem nextStripe_spec (htot : tb.totalBytes = totalLen tb.iov)
    (hbytes : tb.totalBytes ≤ 2147483648) (hv : tbv.Valid tb) (hsize : 1 ≤ size)
    (hin : pos + size ≤ tb.totalBytes) :
    IsBlock tb pos size (nextStripe size tb pos tbv) := by
  obtain ⟨tbv', hrun, hblock⟩ :=
    Toolbox.tbNextBlock_spec { tbv with nbytes := size } htot ⟨hv.slot, hv.sum⟩ hsize hin hbytes
  rw [nextStripe, hrun]
  exact hblock

/-- A stripe taken in one piece is where the buffer has it. -/
theorem quickBase_spec (hblock : IsBlock tb pos size tbv)
    (hin : pos + size ≤ (addresses tb.iov).length) {p} (hquick : quickBase size tbv = some p) :
    ∃ a, p = .user a ∧ ∀ x < size, (addresses tb.iov)[pos + x]? = some (a + (x : Int)) := by
  rw [quickBase] at hquick
  split at hquick
  · next v hbuffer =>
      by_cases hshort : tbv.nbytes < size
      · rw [if_pos hshort] at hquick
        cases hquick
      · rw [if_neg hshort] at hquick
        have hbytes := hblock.bytes
        have hall : tbv.nbytes = size := by
          have := hblock.le
          omega
        rw [hbuffer, hall, Toolbox.addresses_cons, Toolbox.addresses_nil, List.append_nil] at hbytes
        have hlen := congrArg List.length hbytes
        rw [length_span, List.length_take, List.length_drop] at hlen
        refine ⟨v.iovBase, (Option.some.inj hquick).symm, fun x hx => ?_⟩
        have hget := congrArg (fun l : List Int => l[x]?) hbytes
        simp only [List.getElem?_take_of_lt hx, List.getElem?_drop] at hget
        rw [← hget, span, List.getElem?_map, List.getElem?_range (by omega)]
        rfl
  · cases hquick

/-- A straddle buffer is filled with a stripe of the caller's buffer. -/
theorem tbxTbufCopy_copyIn (htot : tb.totalBytes = totalLen tb.iov)
    (hbytes : tb.totalBytes ≤ 2147483648) (hsize : size < 2147483648)
    (hin : pos + size ≤ tb.totalBytes) (b : Nat) (mem : Mem) :
    tbxTbufCopy Loc.user (fun a => .straddle b a.toNat) tb pos (tbxTbufSingle size 0) 0 size mem =
      some (copyIn tb size b pos mem) := by
  rw [tbxTbufCopy_spec (fun _ _ => Loc.noConfusion) htot hbytes rfl hsize.le hsize hin
    (Nat.zero_add size).le, copyIn]
  congr 2
  refine List.map_congr_left fun i hi => ?_
  rw [Nat.zero_add, getD_addresses_single 0 (List.mem_range.mp hi), Int.zero_add, Int.toNat_natCast]
  rfl

/-- A stripe of the caller's buffer is filled from a straddle buffer. -/
theorem tbxTbufCopy_copyBack (htot : tb.totalBytes = totalLen tb.iov)
    (hbytes : tb.totalBytes ≤ 2147483648) (hsize : size < 2147483648)
    (hin : pos + size ≤ tb.totalBytes) (b : Nat) (mem : Mem) :
    tbxTbufCopy (fun a => .straddle b a.toNat) Loc.user (tbxTbufSingle size 0) 0 tb pos size mem =
      some (copyBack tb size b pos mem) := by
  rw [tbxTbufCopy_spec (fun _ _ => Loc.noConfusion) rfl hsize.le htot hbytes hsize
    (Nat.zero_add size).le hin, copyBack]
  congr 2
  refine List.map_congr_left fun i hi => ?_
  rw [Nat.zero_add, getD_addresses_single 0 (List.mem_range.mp hi), Int.zero_add, Int.toNat_natCast]
  rfl

end LStore.Jerasure
