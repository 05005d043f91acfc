import LStore.Jerasure.Losses

/-!
# The vectored round trip

With all devices in order a read of the ranges of a write returns the bytes written, at the
same positions of the buffer, wherever the stripes lie in the pieces of either buffer and
however the parity limit cuts the batches. No two ranges of a request may share a stripe:
both operations would be under way at once, and one of them would win.
-/

namespace LStore.Jerasure

open List

open Segment (ExIovec)
open Toolbox (Tbuf TbufVar)
open Erasure

variable {n m cs : Nat} {q r : RwReq} {s : Segjerase n m cs}

/-- The data of a request as a function of the stripe. -/
theorem RwReq.Distinct.exists_returns (h : q.Distinct n cs) (mem : Mem) :
    ∃ D : Nat → Fin n → Chunk cs, Returns q D mem := by
  have hone : ∀ c, ∃ d : Fin n → Chunk cs, ∀ (j : Nat) v u, q.iov[j]? = some v →
      u < nstripes n cs v → firstStripe n cs v + u = c →
      stripeData n cs q.buffer mem (q.posAt n cs j + u * (n * cs)) = d := by
    intro c
    by_cases hc : ∃ (j : Nat) (v : ExIovec) (u : Nat),
        q.iov[j]? = some v ∧ u < nstripes n cs v ∧ firstStripe n cs v + u = c
    · obtain ⟨j', v', u', hv', hu', hstripe⟩ := hc
      refine ⟨stripeData n cs q.buffer mem (q.posAt n cs j' + u' * (n * cs)),
        fun j v u hv hu heq => ?_⟩
      obtain rfl := h j j' v v' hv hv' u hu u' hu' (heq.trans hstripe.symm)
      obtain rfl : v = v' := Option.some.inj (hv.symm.trans hv')
      obtain rfl : u = u' := by omega
      rfl
    · exact ⟨0, fun j v u hv hu heq => absurd ⟨j, v, u, hv, hu, heq⟩ hc⟩
  choose D hD using hone
  exact ⟨D, fun j v hv u hu => hD _ j v u hv hu rfl⟩

/-- A byte of the buffer belongs to a stripe of a range. -/
theorem exists_stripe {size} (hsize : 0 < size) (iov : List ExIovec) {x}
    (hx : x < (iov.map (nstripes n cs)).sum * size) :
    ∃ (j : Nat) (v : ExIovec), iov[j]? = some v ∧ ∃ u < nstripes n cs v, ∃ z < size,
      x = ((iov.take j).map (nstripes n cs)).sum * size + u * size + z := by
  induction iov generalizing x with
  | nil => simp at hx
  | cons v iov ih =>
    rw [map_cons, sum_cons, add_mul] at hx
    by_cases hhere : x < nstripes n cs v * size
    · refine ⟨0, v, rfl, x / size, Nat.div_lt_of_lt_mul (by rwa [mul_comm]), x % size,
        Nat.mod_lt _ hsize, ?_⟩
      simp [Nat.div_add_mod']
    · obtain ⟨j, w, hw, u, hu, z, hz, heq⟩ := ih (x := x - nstripes n cs v * size) (by omega)
      refine ⟨j + 1, w, hw, u, hu, z, hz, ?_⟩
      rw [take_succ_cons, map_cons, sum_cons, add_mul]
      omega

theorem RwReq.Ok.totalLen_eq (hq : q.Ok n m cs) :
    Segment.totalLen q.iov = (((q.iov.map (nstripes n cs)).sum * (n * cs) : Nat) : Int) := by
  have hwhole := hq.whole
  have hlen := fun v hv => hq.toNat_len (v := v) hv
  rw [Segment.totalLen]
  generalize q.iov = iov at hwhole hlen
  induction iov with
  | nil => simp
  | cons v iov ih =>
    obtain ⟨hv, hlen'⟩ := forall_mem_cons.mp hlen
    have hrest := ih (fun w hw => hwhole w (by simp [hw])) hlen'
    have hpos := (hwhole v (by simp)).2.1
    rw [map_cons, sum_cons, hrest, map_cons, sum_cons, add_mul]
    omega

/-- A write with all devices in order, read back. -/
theorem writeThenRead_clean (hcs : 0 < cs) (hpos : 0 < n) (hq : q.Ok n m cs)
    (hdistinct : q.Distinct n cs) (hr : r.Ok n m cs) (hiov : r.iov = q.iov) (sch sch' : Schedule)
    {mem} (mem' : Mem) (magic magic' : Nat → Magic) (store : Nat → Cell cs) (paranoid : Bool)
    {D : Nat → Fin n → Chunk cs} (hD : Returns q D mem) :
    (writeThenRead s ∅ ∅ sch sch' q r mem mem' magic magic' store paranoid).1 = true ∧
      Returns r D (writeThenRead s ∅ ∅ sch sch' q r mem mem' magic magic' store paranoid).2 := by
  have hcells := fun c hc => failing_write (s := s) hcs hpos hq hdistinct
    (by simp : (∅ : Finset (Fin (n + m))).card ≤ m) ∅ sch magic store hD (c := c) hc
  rw [writeThenRead]
  obtain ⟨child, hchild⟩ : ∃ x, x = failing n m ∅
    (segjeraseWriteFunc s (fun _ => ∅) sch q mem magic store).store := ⟨_, rfl⟩
  have herror : child.errorCode = 0 := by rw [hchild]; rfl
  rw [← hchild] at hcells ⊢
  have hsettled : ∀ v ∈ r.iov, ∀ u < nstripes n cs v,
      Settled { s with paranoidCheck := paranoid } child (fun _ => true) D
        (firstStripe n cs v + u) := by
    intro v hv u hu brute _
    have hc : q.Covers n cs (firstStripe n cs v + u) := ⟨v, hiov ▸ hv, u, hu, rfl⟩
    rw [hcells _ hc, herror]
    have hseen : ∀ k, seen s.plan (D (firstStripe n cs v + u))
        (fun k => store ((firstStripe n cs v + u) * (n + m) + k.val)) ∅ ∅ k =
        ⟨jeCksumCalc (s.plan.encode (D (firstStripe n cs v + u))),
          s.plan.encode (D (firstStripe n cs v + u)) k⟩ := fun k => by simp [seen]
    obtain ⟨hok, hdata⟩ :=
      @readStripe_clean n m cs _ brute _ { s with paranoidCheck := paranoid } hpos hseen
    exact ⟨hok, fun _ => hdata⟩
  obtain ⟨hok, hret⟩ := segjeraseReadFunc_spec hpos hr hsettled hcs sch' mem' magic'
  exact ⟨hok.mpr fun _ _ _ _ => rfl, hret fun _ _ _ _ => rfl⟩

/-- A mirrored pair of devices with chunks of two bytes, and a parity limit that ends every
batch after one operation. -/
def mirroredWide : Segjerase 1 1 2 := ⟨mirror (Chunk 2), 0, true, true, false⟩

/-- The stripes 0 and 2, in a buffer of two pieces from address `a` on. -/
def twoStripes (a : Int) : RwReq := ⟨[⟨0, 2⟩, ⟨4, 2⟩], 0, ⟨4, [⟨a, 3⟩, ⟨a + 10, 1⟩]⟩⟩

theorem distinct_twoStripes (a : Int) : (twoStripes a).Distinct 1 2 := by
  have hfirst : firstStripe 1 2 ⟨0, 2⟩ = 0 ∧ firstStripe 1 2 ⟨4, 2⟩ = 2 := by decide
  have hcount : nstripes 1 2 ⟨0, 2⟩ = 1 ∧ nstripes 1 2 ⟨4, 2⟩ = 1 := by decide
  intro j j' v v' hv hv' u hu u' hu' heq
  have hj : j < 2 := (List.getElem?_eq_some_iff.mp hv).1
  have hj' : j' < 2 := (List.getElem?_eq_some_iff.mp hv').1
  have hcases : ∀ i < 2, ∀ w, (twoStripes a).iov[i]? = some w →
      i = 0 ∧ w = ⟨0, 2⟩ ∨ i = 1 ∧ w = ⟨4, 2⟩ := by
    intro i hi w hw
    match i, hi with
    | 0, _ => exact .inl ⟨rfl, (Option.some.inj hw).symm⟩
    | 1, _ => exact .inr ⟨rfl, (Option.some.inj hw).symm⟩
  rcases hcases j hj v hv with ⟨rfl, rfl⟩ | ⟨rfl, rfl⟩ <;>
    rcases hcases j' hj' v' hv' with ⟨rfl, rfl⟩ | ⟨rfl, rfl⟩ <;> omega

/-- Memory whose bytes tell their addresses. -/
def addressBytes : Mem
  | .user a => UInt8.ofNat a.toNat
  | _ => 0

theorem addWriteStripes_kept (s : Segjerase n m cs) (buffer : Tbuf) (count boff : Nat)
    (st : WriteState n m cs) :
    (addWriteStripes s buffer count boff st).store = st.store ∧
      (addWriteStripes s buffer count boff st).hardError = st.hardError := by
  induction count generalizing boff st with
  | zero => exact ⟨rfl, rfl⟩
  | succ count ih => exact ih (boff + n * cs) (addWriteStripe s buffer boff st)

/-- A range whose length wraps around to less than a cell is written by an operation that
succeeds and stores nothing. -/
theorem write_no_cells {v : ExIovec} (hv : childCells n m cs (nstripes n cs v) = 0)
    (hq : q.iov = [v]) (s : Segjerase n m cs) (sch : Schedule) (mem : Mem) (magic : Nat → Magic)
    (store : Nat → Cell cs) :
    (segjeraseWriteFunc s (fun _ => ∅) sch q mem magic store).ok = true ∧
      (segjeraseWriteFunc s (fun _ => ∅) sch q mem magic store).store = store := by
  have hnone : sch.order [] = [] := (sch.perm []).eq_nil
  have hone : sch.order [0] = [0] := perm_singleton.mp (sch.perm [0])
  obtain ⟨st, hst⟩ : ∃ st : WriteState n m cs,
      st = ⟨[], 0, 0, 0, TbufVar.init, 0, [], [], mem, magic, store, false, false⟩ := ⟨_, rfl⟩
  have hflush : flushWrites ∅ sch st = st := by
    rw [hst]
    simp [flushWrites, hnone]
  obtain ⟨hstore, hhard⟩ := addWriteStripes_kept s q.buffer (nstripes n cs v) q.boff st
  have hattempt : (writeAttempt s ∅ sch q mem magic store).store = store ∧
      (writeAttempt s ∅ sch q mem magic store).hardError = false := by
    rw [writeAttempt, hq, writeLoop, ← hst, hflush, ite_self, writeLoop]
    rw [hst] at hstore hhard ⊢
    simp [flushWrites, addWrite, hone, finishWrite, hv, childWrite, hstore, hhard]
  simp only [segjeraseWriteFunc, hattempt.2, Bool.false_and, Bool.false_eq_true, if_false]
  exact ⟨rfl, hattempt.1⟩

/-- One range of 1 GiB. -/
def oneGiB : RwReq := ⟨[⟨0, 1073741824⟩], 0, ⟨1073741824, [⟨0, 1073741824⟩]⟩⟩

end LStore.Jerasure
