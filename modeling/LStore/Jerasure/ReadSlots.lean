import LStore.Jerasure.Recovery
import LStore.Jerasure.Requests

/-!
# One operation of a read

A `Slot` says where the stripes of an operation lie: in the child segment, in the arrays of
the read and in the caller's buffer. The memory behind the chunks of a slot does not
overlap, so the child's reply arrives undisturbed, each stripe is checked on its own cells,
and copying the straddle buffers back completes the caller's buffer.
-/

namespace LStore.Jerasure

open List

open Toolbox (Tbuf addresses)
open ByteSpan Erasure

variable {n m cs : Nat} {a : Int}

/-- Where the stripes of an operation lie: from stripe `first` of the child segment, from
row `row` of the arrays and from position `pos` of the caller's buffer on. `place` points
to the data of a stripe, in the straddle buffers from `straddles` on where needed. -/
structure Slot where
  first : Nat
  pos : Nat
  row : Nat
  count : Nat
  place : Nat → Loc
  straddles : Nat
  straddleCount : Nat

/-- The chunk of a device. -/
def Slot.base (g : Slot) (n m cs t : Nat) (k : Fin (n + m)) : Loc :=
  stripeBases n m cs (g.place t) ((g.row + t) * (m * cs)) k

/-- A stripe in one piece of the caller's buffer, or in a straddle buffer of the slot. -/
inductive Slot.PlacedAt (g : Slot) (buffer : Tbuf) (size : Nat) (offsets : List Nat) (t : Nat) :
    Loc → Prop
  | user (a : Int) : (∀ x < size, (addresses buffer.iov)[g.pos + t * size + x]? = some (a + (x : Int))) →
      Slot.PlacedAt g buffer size offsets t (.user a)
  | straddle (b : Nat) : g.straddles ≤ b → b < g.straddles + g.straddleCount →
      offsets[b]? = some (g.pos + t * size) → Slot.PlacedAt g buffer size offsets t (.straddle b 0)

/-- The stripes have their places, and every straddle buffer of the slot serves one. -/
structure Slot.Placed (g : Slot) (buffer : Tbuf) (size : Nat) (offsets : List Nat) : Prop where
  place : ∀ t < g.count, g.PlacedAt buffer size offsets t (g.place t)
  owner : ∀ b, g.straddles ≤ b → b < g.straddles + g.straddleCount →
    ∃ t < g.count, g.place t = .straddle b 0
  room : g.pos + g.count * size ≤ (addresses buffer.iov).length

variable {g : Slot} {buffer : Tbuf} {size : Nat} {offsets : List Nat} {t t' : Nat}

/-- The byte behind an offset in a stripe determines stripe and offset. -/
theorem Slot.Placed.data_inj (h : g.Placed buffer size offsets)
    (hnd : (addresses buffer.iov).Nodup) (ht : t < g.count) (ht' : t' < g.count) {x x'}
    (hx : x < size) (hx' : x' < size) (heq : (g.place t).add x = (g.place t').add x') :
    t = t' ∧ x = x' := by
  have hplace := h.place t ht
  have hplace' := h.place t' ht'
  generalize g.place t = p at hplace heq
  generalize g.place t' = p' at hplace' heq
  cases hplace with
  | user a ha =>
    cases hplace' with
    | user a' ha' =>
      have hval : a + (x : Int) = a' + (x' : Int) := Loc.user.inj heq
      have hget : (addresses buffer.iov)[g.pos + t * size + x]? =
          (addresses buffer.iov)[g.pos + t' * size + x']? := by
        rw [ha x hx, ha' x' hx', hval]
      have hlt : g.pos + t * size + x < (addresses buffer.iov).length := by
        have hroom := h.room
        have := mul_add_lt ht hx
        omega
      have hidx := (List.getElem?_inj hlt hnd).mp hget
      exact mul_add_inj hx hx' (by omega)
    | straddle b' _ _ _ => cases heq
  | straddle b _ _ hb =>
    cases hplace' with
    | user a' ha' => cases heq
    | straddle b' _ _ hb' =>
      obtain ⟨rfl, hxx⟩ := Loc.straddle.inj heq
      have hpos := Option.some.inj (hb.symm.trans hb')
      have hsize : 0 < size := by omega
      have htt : t * size = t' * size := by omega
      exact ⟨Nat.eq_of_mul_eq_mul_right hsize htt, by omega⟩

/-- The bytes of different chunks of a slot are different. -/
theorem Slot.Placed.base_inj (h : g.Placed buffer (n * cs) offsets)
    (hnd : (addresses buffer.iov).Nodup) (ht : t < g.count) (ht' : t' < g.count) {k k' x x'}
    (hx : x < cs) (hx' : x' < cs) (heq : (g.base n m cs t k).add x = (g.base n m cs t' k').add x') :
    t = t' ∧ k = k' ∧ x = x' := by
  have hregion : ∀ t < g.count, ∀ y z, (g.place t).add y ≠ .parity z := by
    intro t ht y z
    have hplace := h.place t ht
    generalize g.place t = p at hplace
    cases hplace <;> intro heq <;> cases heq
  rw [Slot.base, Slot.base, stripeBases, stripeBases] at heq
  by_cases hk : k.val < n <;> by_cases hk' : k'.val < n
  · rw [if_pos hk, if_pos hk', Loc.add_add, Loc.add_add] at heq
    obtain ⟨rfl, hoff⟩ := h.data_inj hnd ht ht' (mul_add_lt hk hx) (mul_add_lt hk' hx') heq
    obtain ⟨hkk, hxx⟩ := mul_add_inj hx hx' hoff
    exact ⟨rfl, Fin.ext hkk, hxx⟩
  · rw [if_pos hk, if_neg hk', Loc.add_add] at heq
    exact absurd heq (hregion t ht _ _)
  · rw [if_neg hk, if_pos hk', Loc.add_add] at heq
    exact absurd heq.symm (hregion t' ht' _ _)
  · rw [if_neg hk, if_neg hk'] at heq
    have hval := Loc.parity.inj heq
    have hkm : k.val - n < m := by omega
    have hkm' : k'.val - n < m := by omega
    obtain ⟨hrow, hoff⟩ := mul_add_inj (mul_add_lt hkm hx) (mul_add_lt hkm' hx')
      (show (g.row + t) * (m * cs) + ((k.val - n) * cs + x) =
        (g.row + t') * (m * cs) + ((k'.val - n) * cs + x') by omega)
    obtain ⟨hkk, hxx⟩ := mul_add_inj hx hx' hoff
    exact ⟨by omega, Fin.ext (by omega), hxx⟩

/-- An address that is not in the slot's part of the caller's buffer. -/
def Slot.Outside (g : Slot) (buffer : Tbuf) (size : Nat) (a : Int) : Prop :=
  ∀ y < g.count * size, (addresses buffer.iov)[g.pos + y]? ≠ some a

theorem Slot.Placed.ne_user (h : g.Placed buffer (n * cs) offsets) (ht : t < g.count) {k x}
    (hx : x < cs) (ha : g.Outside buffer (n * cs) a) : (g.base n m cs t k).add x ≠ .user a := by
  intro heq
  rw [Slot.base, stripeBases] at heq
  split_ifs at heq with hk
  · rw [Loc.add_add] at heq
    have hplace := h.place t ht
    generalize g.place t = p at hplace heq
    cases hplace with
    | user a' ha' =>
      have hin := ha' (k.val * cs + x) (mul_add_lt hk hx)
      rw [Loc.user.inj heq, add_assoc] at hin
      exact ha _ (mul_add_lt ht (mul_add_lt hk hx)) hin
    | straddle b _ _ _ => cases heq
  · cases heq

variable {st : ReadState n m} {child : ChildRead cs}

/-- The entries of a slot in `iov`. -/
def Slot.Listed (g : Slot) (cs : Nat) (st : ReadState n m) : Prop :=
  ∀ t < g.count, ∀ k : Fin (n + m), st.iov[(g.row + t) * (n + m) + k.val]? =
    some ⟨(g.row + t) * (n + m) + k.val, g.base n m cs t k⟩

/-- What the child holds of a stripe of the slot. -/
def Slot.cells (g : Slot) (n m : Nat) (child : ChildRead cs) (t : Nat) (k : Fin (n + m)) : Cell cs :=
  child.cell ((g.first + t) * (n + m) + k.val)

variable (child) in
/-- The reply for an entry of the slot. -/
theorem Slot.Listed.mem_reply (h : g.Listed cs st) (e : IoEntry × Cell cs) :
    e ∈ (((st.iov.drop (g.row * (n + m))).take (g.count * (n + m))).zipIdx.map fun e =>
        (e.1, child.cell (g.first * (n + m) + e.2))) ↔
      ∃ t < g.count, ∃ k : Fin (n + m),
        e = (⟨(g.row + t) * (n + m) + k.val, g.base n m cs t k⟩, g.cells n m child t k) := by
  have hentry : ∀ t < g.count, ∀ k : Fin (n + m),
      ((st.iov.drop (g.row * (n + m))).take (g.count * (n + m)))[t * (n + m) + k.val]? =
        some ⟨(g.row + t) * (n + m) + k.val, g.base n m cs t k⟩ := by
    intro t ht k
    rw [List.getElem?_take_of_lt (mul_add_lt ht k.isLt), List.getElem?_drop, ← h t ht k,
      add_mul, add_assoc]
  have hcell : ∀ t (k : Fin (n + m)), child.cell (g.first * (n + m) + (t * (n + m) + k.val)) =
      g.cells n m child t k := by
    intro t k
    rw [Slot.cells, add_mul, add_assoc]
  rw [mem_map]
  constructor
  · rintro ⟨⟨x, p⟩, hmem, rfl⟩
    rw [mem_zipIdx_iff_getElem?] at hmem
    have hp : p < g.count * (n + m) := by
      obtain ⟨hlt, -⟩ := List.getElem?_eq_some_iff.mp hmem
      exact Nat.lt_of_lt_of_le hlt (length_take_le _ _)
    have hpos : 0 < n + m := Nat.pos_of_mul_pos_left (Nat.lt_of_le_of_lt (Nat.zero_le _) hp)
    have ht : p / (n + m) < g.count := Nat.div_lt_of_lt_mul (by rwa [Nat.mul_comm])
    have hsplit : p / (n + m) * (n + m) + p % (n + m) = p := Nat.div_add_mod' p (n + m)
    refine ⟨p / (n + m), ht, ⟨p % (n + m), Nat.mod_lt _ hpos⟩, ?_⟩
    have hx := hentry _ ht ⟨p % (n + m), Nat.mod_lt _ hpos⟩
    have hc := hcell (p / (n + m)) ⟨p % (n + m), Nat.mod_lt _ hpos⟩
    simp only [hsplit] at hx hc
    rw [← hc]
    exact Prod.ext (Option.some.inj (hmem.symm.trans hx)) rfl
  · rintro ⟨t, ht, k, rfl⟩
    refine ⟨(_, t * (n + m) + k.val), mem_zipIdx_iff_getElem?.mpr (hentry t ht k), ?_⟩
    rw [hcell]

/-- The arrays hold the child's reply for the stripes from `lo` on. -/
def Slot.Loaded (g : Slot) (child : ChildRead cs) (lo : Nat) (st : ReadState n m) : Prop :=
  ∀ t, lo ≤ t → t < g.count → ∀ k : Fin (n + m),
    st.magic ((g.row + t) * (n + m) + k.val) = (g.cells n m child t k).magic ∧
      chunkAt st.mem (g.base n m cs t k) = (g.cells n m child t k).chunk

variable (child) in
theorem Slot.Placed.loaded (h : g.Placed buffer (n * cs) offsets) (hlisted : g.Listed cs st)
    (hnd : (addresses buffer.iov).Nodup) :
    g.Loaded child 0 (childRead child (g.first * (n + m))
      ((st.iov.drop (g.row * (n + m))).take (g.count * (n + m))) st) := by
  intro t _ ht k
  have hreply := hlisted.mem_reply child
  have hentry := (hreply _).mpr ⟨t, ht, k, rfl⟩
  constructor
  · apply writeAll_eq
    · exact mem_map.mpr ⟨_, hentry, rfl⟩
    · intro p hp heq
      obtain ⟨e, he, rfl⟩ := mem_map.mp hp
      obtain ⟨t', ht', k', rfl⟩ := (hreply e).mp he
      obtain ⟨hrow, hk⟩ := mul_add_inj k'.isLt k.isLt heq
      obtain rfl : t' = t := by omega
      obtain rfl : k' = k := Fin.ext hk
      rfl
  · refine writeChunks_at hentry fun e he x' x heq => ?_
    obtain ⟨t', ht', k', rfl⟩ := (hreply e).mp he
    obtain ⟨rfl, rfl, hx⟩ := h.base_inj hnd ht' ht x'.isLt x.isLt heq
    obtain rfl : x' = x := Fin.ext hx
    rfl

theorem Slot.Placed.childRead_outside (h : g.Placed buffer (n * cs) offsets)
    (hlisted : g.Listed cs st) (ha : g.Outside buffer (n * cs) a) :
    (childRead child (g.first * (n + m))
      ((st.iov.drop (g.row * (n + m))).take (g.count * (n + m))) st).mem (.user a) =
      st.mem (.user a) := by
  refine writeChunks_outside fun e he x hx => ?_
  obtain ⟨t, ht, k, rfl⟩ := (hlisted.mem_reply child e).mp he
  exact h.ne_user ht hx ha

/-- The stripes of the child segment have a fixed outcome, whatever bad map was found before:
accepted with the data `dat`, or rejected. -/
def Settled (s : Segjerase n m cs) (child : ChildRead cs) (good : Nat → Bool)
    (dat : Nat → Fin n → Chunk cs) (c : Nat) : Prop :=
  ∀ brute, Small brute →
    (readStripe s child.errorCode brute fun k => child.cell (c * (n + m) + k.val)).ok = good c ∧
    (good c = true →
      data (readStripe s child.errorCode brute fun k => child.cell (c * (n + m) + k.val)).word =
        dat c)

variable {st₀ : ReadState n m} {child : ChildRead cs} {s : Segjerase n m cs} {good : Nat → Bool}
  {dat : Nat → Fin n → Chunk cs}

/-- The slot after the check of its first `t` stripes, from `st₀` on. -/
structure Slot.Checked (g : Slot) (buffer : Tbuf) (child : ChildRead cs) (good : Nat → Bool)
    (dat : Nat → Fin n → Chunk cs) (st₀ : ReadState n m) (t : Nat) (st : ReadState n m) : Prop where
  loaded : g.Loaded child t st
  data : ∀ u < t, good (g.first + u) = true → ∀ i : Fin n,
    chunkAt st.mem (g.base n m cs u (Fin.castAdd m i)) = dat (g.first + u) i
  ok : st.ok = (st₀.ok && (List.range t).all fun u => good (g.first + u))
  small : Small st.brute
  outside : ∀ a, g.Outside buffer (n * cs) a → st.mem (.user a) = st₀.mem (.user a)
  same : st = { st₀ with mem := st.mem, magic := st.magic, ok := st.ok, brute := st.brute }

theorem Slot.Checked.step (hpos : 0 < n) (h : g.Placed buffer (n * cs) offsets)
    (hlisted : g.Listed cs st₀) (hnd : (addresses buffer.iov).Nodup) (ht : t < g.count)
    (hsettled : Settled s child good dat (g.first + t))
    (hst : g.Checked buffer child good dat st₀ t st) :
    g.Checked buffer child good dat st₀ (t + 1)
      (checkStripe s child.errorCode ((g.row + t) * (n + m)) st) := by
  have hiov : st.iov = st₀.iov := by rw [hst.same]
  have hentry : ∀ k : Fin (n + m), st.iov.getD ((g.row + t) * (n + m) + k.val) default =
      ⟨(g.row + t) * (n + m) + k.val, g.base n m cs t k⟩ := by
    intro k
    rw [hiov, getD_eq_getElem?_getD, hlisted t ht k, Option.getD_some]
  have hcells : (fun k : Fin (n + m) => (⟨st.magic ((g.row + t) * (n + m) + k.val),
      chunkAt st.mem (g.base n m cs t k)⟩ : Cell cs)) =
      fun k => child.cell ((g.first + t) * (n + m) + k.val) := by
    funext k
    obtain ⟨hmagic, hchunk⟩ := hst.loaded t le_rfl ht k
    rw [hmagic, hchunk]
    rfl
  obtain ⟨hok, hdata⟩ := hsettled st.brute hst.small
  have hsmall := small_readStripe hpos s child.errorCode hst.small
    (fun k => child.cell ((g.first + t) * (n + m) + k.val))
  rw [checkStripe]
  simp only [hentry, hcells]
  generalize readStripe s child.errorCode st.brute
    (fun k => child.cell ((g.first + t) * (n + m) + k.val)) = r at hok hdata hsmall
  have hother : ∀ u < g.count, u ≠ t → ∀ (k : Fin (n + m)) (x : Fin cs),
      writeAll ((List.finRange (n + m)).flatMap fun k => chunkWrites (g.base n m cs t k) (r.word k))
        st.mem ((g.base n m cs u k).add x.val) = st.mem ((g.base n m cs u k).add x.val) := by
    intro u hu hne k x
    refine writeChunks_outside fun k' _ x' hx' heq => ?_
    exact hne (h.base_inj hnd ht hu hx' x.isLt heq).1.symm
  refine ⟨?_, ?_, ?_, hsmall, ?_, by rw [hst.same]⟩
  · intro u hlo hu k
    obtain ⟨hmagic, hchunk⟩ := hst.loaded u (by omega) hu k
    refine ⟨hmagic, ?_⟩
    rw [← hchunk]
    exact funext fun x => hother u hu (by omega) k x
  · intro u hu hgood i
    by_cases hut : u = t
    · subst hut
      rw [← hdata hgood]
      refine writeChunks_at (mem_finRange (Fin.castAdd m i)) fun k' _ x' x heq => ?_
      obtain ⟨-, rfl, hx⟩ := h.base_inj hnd ht ht x'.isLt x.isLt heq
      obtain rfl : x' = x := Fin.ext hx
      rfl
    · rw [← hst.data u (by omega) hgood i]
      exact funext fun x => hother u (by omega) hut _ x
  · rw [range_succ, all_append, hst.ok, hok]
    simp [Bool.and_assoc]
  · intro a ha
    rw [← hst.outside a ha]
    exact writeChunks_outside fun k' _ x' hx' => h.ne_user ht hx' ha

theorem Slot.Checked.run (hpos : 0 < n) (h : g.Placed buffer (n * cs) offsets)
    (hlisted : g.Listed cs st₀) (hnd : (addresses buffer.iov).Nodup)
    (hsettled : ∀ u < g.count, Settled s child good dat (g.first + u)) (count : Nat)
    (hcount : t + count = g.count) (hst : g.Checked buffer child good dat st₀ t st) :
    g.Checked buffer child good dat st₀ g.count
      (checkStripes s child.errorCode count ((g.row + t) * (n + m)) st) := by
  induction count generalizing t st with
  | zero =>
    obtain rfl : t = g.count := by omega
    exact hst
  | succ count ih =>
    have hnext : (g.row + t) * (n + m) + (n + m) = (g.row + (t + 1)) * (n + m) :=
      (Nat.succ_mul _ _).symm
    rw [checkStripes, hnext]
    exact ih (by omega) (hst.step hpos h hlisted hnd (by omega) (hsettled t (by omega)))

variable {mem : Mem}

theorem copyBack_straddle (b pos b' i : Nat) :
    copyBack buffer size b pos mem (.straddle b' i) = mem (.straddle b' i) := by
  apply writeAll_of_notMem
  intro p hp heq
  obtain ⟨j, -, rfl⟩ := mem_map.mp hp
  cases heq

theorem copyBack_outside {b pos} (ha : ∀ i < size, (addresses buffer.iov).getD (pos + i) 0 ≠ a) :
    copyBack buffer size b pos mem (.user a) = mem (.user a) := by
  apply writeAll_of_notMem
  intro p hp heq
  obtain ⟨i, hi, rfl⟩ := mem_map.mp hp
  exact ha i (mem_range.mp hi) (Loc.user.inj heq)

theorem copyBack_inside (hnd : (addresses buffer.iov).Nodup) {b pos i} (hi : i < size)
    (hroom : pos + size ≤ (addresses buffer.iov).length) :
    copyBack buffer size b pos mem (bufferLoc buffer (pos + i)) = mem (.straddle b i) := by
  apply writeAll_eq
  · exact mem_map.mpr ⟨i, mem_range.mpr hi, rfl⟩
  · intro p hp heq
    obtain ⟨j, hj, rfl⟩ := mem_map.mp hp
    have hj := mem_range.mp hj
    have hval := Loc.user.inj heq
    rw [getD_eq_getElem _ _ (by omega), getD_eq_getElem _ _ (by omega)] at hval
    have := hnd.getElem_inj_iff.mp hval
    obtain rfl : j = i := by omega
    rfl

variable {start count : Nat}

/-- Straddle buffers are only read. -/
theorem copyStraddles_straddle (b i : Nat) :
    copyStraddles buffer size start count offsets mem (.straddle b i) = mem (.straddle b i) := by
  induction count with
  | zero => rfl
  | succ count ih =>
    rw [copyStraddles, range_succ, foldl_append, foldl_cons, foldl_nil,
      copyBack_straddle]
    exact ih

theorem copyStraddles_outside
    (ha : ∀ k < count, ∀ i < size,
      (addresses buffer.iov).getD (offsets.getD (start + k) 0 + i) 0 ≠ a) :
    copyStraddles buffer size start count offsets mem (.user a) = mem (.user a) := by
  induction count with
  | zero => rfl
  | succ count ih =>
    rw [copyStraddles, range_succ, foldl_append, foldl_cons, foldl_nil,
      copyBack_outside (ha count (by omega))]
    exact ih fun k hk => ha k (by omega)

/-- A straddle buffer arrives at its position, unless a later one overwrites it. -/
theorem copyStraddles_inside (hnd : (addresses buffer.iov).Nodup) {k i} (hk : k < count)
    (hi : i < size) (hroom : offsets.getD (start + k) 0 + size ≤ (addresses buffer.iov).length)
    (hlast : ∀ k' < count, k < k' → ∀ j < size,
      (addresses buffer.iov).getD (offsets.getD (start + k') 0 + j) 0 ≠
        (addresses buffer.iov).getD (offsets.getD (start + k) 0 + i) 0) :
    copyStraddles buffer size start count offsets mem
        (bufferLoc buffer (offsets.getD (start + k) 0 + i)) = mem (.straddle (start + k) i) := by
  induction count with
  | zero => omega
  | succ count ih =>
    rw [copyStraddles, range_succ, foldl_append, foldl_cons, foldl_nil]
    by_cases hkc : k = count
    · subst hkc
      rw [copyBack_inside hnd hi hroom]
      exact copyStraddles_straddle _ _
    · rw [bufferLoc, copyBack_outside (hlast count (by omega) (by omega))]
      exact ih (by omega) fun k' hk' => hlast k' (by omega)

variable {slot : Nat}

/-- A straddle buffer of the slot belongs to a stripe. -/
theorem Slot.Placed.offset_eq (h : g.Placed buffer size offsets) {k} (hk : k < g.straddleCount) :
    ∃ t < g.count, g.place t = .straddle (g.straddles + k) 0 ∧
      offsets.getD (g.straddles + k) 0 = g.pos + t * size := by
  obtain ⟨t, ht, heq⟩ := h.owner (g.straddles + k) (by omega) (by omega)
  refine ⟨t, ht, heq, ?_⟩
  have hplace := h.place t ht
  rw [heq] at hplace
  cases hplace with
  | straddle _ _ _ hoff => rw [getD_eq_getElem?_getD, hoff, Option.getD_some]

/-- Bytes of different stripes have different addresses. -/
theorem Slot.Placed.address_ne (h : g.Placed buffer size offsets)
    (hnd : (addresses buffer.iov).Nodup) {t u i x} (ht : t < g.count) (hu : u < g.count)
    (hne : t ≠ u) (hi : i < size) (hx : x < size) :
    (addresses buffer.iov).getD (g.pos + t * size + i) 0 ≠
      (addresses buffer.iov).getD (g.pos + u * size + x) 0 := by
  intro heq
  have hroom := h.room
  have hti := mul_add_lt ht hi
  have hux := mul_add_lt hu hx
  rw [getD_eq_getElem _ _ (by omega), getD_eq_getElem _ _ (by omega)] at heq
  have hidx := hnd.getElem_inj_iff.mp heq
  exact hne (mul_add_inj hi hx (by omega)).1

theorem Slot.Outside.getD_ne (ha : g.Outside buffer size a) (h : g.Placed buffer size offsets)
    {t i} (ht : t < g.count) (hi : i < size) :
    (addresses buffer.iov).getD (g.pos + t * size + i) 0 ≠ a := by
  intro heq
  have hroom := h.room
  have hti := mul_add_lt ht hi
  refine ha (t * size + i) hti ?_
  rw [getD_eq_getElem _ _ (by omega)] at heq
  rw [← add_assoc, List.getElem?_eq_getElem (by omega), heq]

/-- What a finished operation has done. -/
structure Slot.Finished (g : Slot) (buffer : Tbuf) (good : Nat → Bool)
    (dat : Nat → Fin n → Chunk cs) (st st' : ReadState n m) : Prop where
  delivered : ∀ u < g.count, good (g.first + u) = true →
    stripeData n cs buffer st'.mem (g.pos + u * (n * cs)) = dat (g.first + u)
  ok : st'.ok = (st.ok && (List.range g.count).all fun u => good (g.first + u))
  small : Small st'.brute
  outside : ∀ a, g.Outside buffer (n * cs) a → st'.mem (.user a) = st.mem (.user a)
  same : st' = { st with mem := st'.mem, magic := st'.magic, ok := st'.ok, brute := st'.brute }

/-- The data of a checked slot reaches the caller's buffer. -/
theorem Slot.Placed.delivered (h : g.Placed buffer (n * cs) offsets)
    (hnd : (addresses buffer.iov).Nodup) {mem u} (hu : u < g.count) {d}
    (hdata : ∀ i : Fin n, chunkAt mem (g.base n m cs u (Fin.castAdd m i)) = d i) :
    stripeData n cs buffer
      (copyStraddles buffer (n * cs) g.straddles g.straddleCount offsets mem)
      (g.pos + u * (n * cs)) = d := by
  funext i j
  have hx : i.val * cs + j.val < n * cs := mul_add_lt i.isLt j.isLt
  have hval : mem ((g.place u).add (i.val * cs + j.val)) = d i j := by
    rw [← hdata i, chunkAt, Slot.base, stripeBases_data, Loc.add_add]
  have hplace := h.place u hu
  rw [stripeData]
  cases hp : g.place u with
  | parity z =>
    rw [hp] at hplace
    cases hplace
  | user a =>
    rw [hp] at hplace hval
    cases hplace with
    | user _ ha =>
      have haddr : (addresses buffer.iov).getD
          (g.pos + u * (n * cs) + (i.val * cs + j.val)) 0 = a + ((i.val * cs + j.val : Nat) : Int) := by
        rw [getD_eq_getElem?_getD, ha _ hx, Option.getD_some]
      rw [bufferLoc, copyStraddles_outside, haddr]
      · exact hval
      · intro k hk x hxs
        obtain ⟨t, ht, hstr, hoff⟩ := h.offset_eq hk
        rw [hoff]
        refine h.address_ne hnd ht hu ?_ hxs hx
        rintro rfl
        rw [hp] at hstr
        cases hstr
  | straddle b z =>
    rw [hp] at hplace hval
    cases hplace with
    | straddle _ hlo hhi hoff =>
      obtain ⟨k, rfl⟩ : ∃ k, b = g.straddles + k := ⟨b - g.straddles, by omega⟩
      have hk : k < g.straddleCount := by omega
      have hgetD : offsets.getD (g.straddles + k) 0 = g.pos + u * (n * cs) := by
        rw [getD_eq_getElem?_getD, hoff, Option.getD_some]
      have hroom := h.room
      have hend : u * (n * cs) + n * cs ≤ g.count * (n * cs) := by
        rw [← Nat.succ_mul]
        exact Nat.mul_le_mul_right _ hu
      rw [← hgetD, copyStraddles_inside hnd hk hx (by rw [hgetD]; omega)]
      · rw [← hval]
        simp [Loc.add]
      · intro k' hk' hlt x hxs
        obtain ⟨t, ht, hstr, hoff'⟩ := h.offset_eq hk'
        rw [hoff', hgetD]
        refine h.address_ne hnd ht hu ?_ hxs hx
        rintro rfl
        rw [hp] at hstr
        have := (Loc.straddle.inj hstr).1
        omega

theorem Slot.Placed.finishRead_spec (hpos : 0 < n)
    (h : g.Placed buffer (n * cs) st.straddleOffset) (hlisted : g.Listed cs st)
    (hnd : (addresses buffer.iov).Nodup)
    (hinfo : st.info[slot]? = some ⟨g.first * (n + m), g.row * (n + m), g.count,
      g.count * (n + m), g.straddles, g.straddleCount⟩)
    (hsettled : ∀ u < g.count, Settled s child good dat (g.first + u)) (hsmall : Small st.brute) :
    g.Finished buffer good dat st (finishRead s child buffer st slot) := by
  have hloaded := h.loaded child hlisted hnd
  obtain ⟨st₁, hst₁⟩ : ∃ x, x = childRead child (g.first * (n + m))
    ((st.iov.drop (g.row * (n + m))).take (g.count * (n + m))) st := ⟨_, rfl⟩
  rw [← hst₁] at hloaded
  have hstart : g.Checked buffer child good dat st 0 st₁ := by
    refine ⟨hloaded, fun u hu => by omega, by simp [hst₁, childRead], ?_, ?_, ?_⟩
    · rw [hst₁]
      exact hsmall
    · intro a ha
      rw [hst₁, h.childRead_outside hlisted ha]
    · rw [hst₁]
      rfl
  have hrun := hstart.run hpos h hlisted hnd hsettled g.count (zero_add _)
  rw [finishRead, hinfo]
  simp only [← hst₁]
  generalize checkStripes s child.errorCode g.count (g.row * (n + m)) st₁ = st₂ at hrun
  have hoffs : st₂.straddleOffset = st.straddleOffset := by rw [hrun.same]
  simp only [hoffs]
  refine ⟨?_, hrun.ok, hrun.small, ?_, by rw [hrun.same]⟩
  · intro u hu hgood
    exact h.delivered hnd hu (hrun.data u hu hgood)
  · intro a ha
    rw [← hrun.outside a ha]
    refine copyStraddles_outside fun k hk i hi => ?_
    obtain ⟨t, ht, -, hoff⟩ := h.offset_eq hk
    rw [hoff]
    exact ha.getD_ne h ht hi

end LStore.Jerasure
