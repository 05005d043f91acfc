import LStore.Jerasure.Requests

/-!
# A vectored write

Encoding a stripe only writes to parts of the arrays and to straddle buffers that no
operation under way uses (`Below`), so an operation still finds its stripes when it is
waited for. `Writing` is the invariant of the loop over the ranges: operations under way
have their encoded stripes in the arrays, and those that have finished have left them on
the devices that did not fail.
-/

namespace LStore.Jerasure

open List Function

open Segment (ExIovec)
open Toolbox (Tbuf TbufVar addresses)
open ByteSpan Erasure

variable {n m cs : Nat} {q : RwReq} {s : Segjerase n m cs} {st st' : WriteState n m cs}
  {i j : Nat} {v : ExIovec} {mem₀ : Mem}

/-- Memory that is already in use when `straddles` straddle buffers and `parity` bytes of the
parity buffer are taken. -/
def Below (straddles parity : Nat) : Loc → Prop
  | .user _ => True
  | .straddle b _ => b < straddles
  | .parity p => p < parity

theorem Below.mono {a b a' b'} (ha : a ≤ a') (hb : b ≤ b') {l} (h : Below a b l) :
    Below a' b' l := by
  cases l with
  | user x => trivial
  | straddle x y => exact lt_of_lt_of_le h ha
  | parity x => exact lt_of_lt_of_le h hb

variable {buffer : Tbuf} {boff count parity : Nat} {mem : Mem}

/-- The codeword of the stripe at a position of the caller's buffer. -/
def wordAt (s : Segjerase n m cs) (buffer : Tbuf) (mem : Mem) (pos : Nat) : Word n m cs :=
  s.plan.encode (stripeData n cs buffer mem pos)

theorem copyIn_inside {size b pos i} (hi : i < size) (mem : Mem) :
    copyIn buffer size b pos mem (.straddle b i) = mem (bufferLoc buffer (pos + i)) := by
  apply writeAll_eq
  · exact mem_map.mpr ⟨i, mem_range.mpr hi, rfl⟩
  · intro p hp heq
    obtain ⟨j, -, rfl⟩ := mem_map.mp hp
    rw [(Loc.straddle.inj heq).2]

theorem copyIn_outside {size b pos l} (hl : ∀ i, l ≠ .straddle b i) :
    copyIn buffer size b pos mem l = mem l := by
  apply writeAll_of_notMem
  intro p hp heq
  obtain ⟨j, -, rfl⟩ := mem_map.mp hp
  exact hl j heq.symm

/-- The state with `count` more stripes of the buffer, from `boff` on. -/
structure Encoded (s : Segjerase n m cs) (buffer : Tbuf) (mem₀ : Mem) (boff : Nat)
    (st : WriteState n m cs) (count : Nat) (st' : WriteState n m cs) : Prop where
  tbv : st'.tbv.Valid buffer
  row : st'.currStripe = st.currStripe + count
  parity : st'.parityUsed = st'.currStripe * (m * cs)
  length : st'.iov.length = st'.currStripe * (n + m)
  entries : ∃ more, st'.iov = st.iov ++ more
  user : ∀ a, st'.mem (.user a) = mem₀ (.user a)
  straddles : st.straddleUsed ≤ st'.straddleUsed
  frame : ∀ l, Below st.straddleUsed st.parityUsed l → st'.mem l = st.mem l
  magicFrame : ∀ r < st.currStripe, st'.magic r = st.magic r
  magic : ∀ t < count, st'.magic (st.currStripe + t) =
    jeCksumCalc (wordAt s buffer mem₀ (boff + t * (n * cs)))
  entry : ∀ t < count, ∀ k : Fin (n + m), ∃ base,
    st'.iov[(st.currStripe + t) * (n + m) + k.val]? = some ⟨st.currStripe + t, base⟩ ∧
    chunkAt st'.mem base = wordAt s buffer mem₀ (boff + t * (n * cs)) k ∧
    ∀ x < cs, Below st'.straddleUsed st'.parityUsed (base.add x)
  same : st' = { st with
    tbv := st'.tbv
    currStripe := st'.currStripe
    parityUsed := st'.parityUsed
    iov := st'.iov
    straddleUsed := st'.straddleUsed
    mem := st'.mem
    magic := st'.magic }

theorem addWriteStripes_concat (s : Segjerase n m cs) (buffer : Tbuf) (count boff : Nat)
    (st : WriteState n m cs) :
    addWriteStripes s buffer (count + 1) boff st =
      addWriteStripe s buffer (boff + count * (n * cs)) (addWriteStripes s buffer count boff st) := by
  induction count generalizing boff st with
  | zero => simp [addWriteStripes]
  | succ count ih =>
    rw [addWriteStripes, ih, addWriteStripes]
    congr 1
    rw [Nat.succ_mul]
    omega

/-- One encoded stripe. -/
structure Stripe (s : Segjerase n m cs) (buffer : Tbuf) (mem₀ : Mem) (pos : Nat)
    (st st' : WriteState n m cs) (base : Loc) : Prop where
  tbv : st'.tbv.Valid buffer
  straddles : st.straddleUsed ≤ st'.straddleUsed
  parity : st'.parityUsed = st.parityUsed + m * cs
  frame : ∀ l, Below st.straddleUsed st.parityUsed l → st'.mem l = st.mem l
  iov : st'.iov = st.iov ++ (List.finRange (n + m)).map fun k =>
    ⟨st.currStripe, stripeBases n m cs base st.parityUsed k⟩
  magic : st'.magic = Function.update st.magic st.currStripe (jeCksumCalc (wordAt s buffer mem₀ pos))
  word : ∀ k, chunkAt st'.mem (stripeBases n m cs base st.parityUsed k) = wordAt s buffer mem₀ pos k
  below : ∀ k, ∀ x < cs, Below st'.straddleUsed st'.parityUsed
    ((stripeBases n m cs base st.parityUsed k).add x)
  row : st'.currStripe = st.currStripe + 1
  same : st' = { st with
    tbv := st'.tbv
    currStripe := st'.currStripe
    parityUsed := st'.parityUsed
    iov := st'.iov
    straddleUsed := st'.straddleUsed
    mem := st'.mem
    magic := st'.magic }

/-- The data of the stripe as `encode_block` finds it. -/
structure DataReady (n cs : Nat) (buffer : Tbuf) (mem₀ : Mem) (pos straddles parity : Nat)
    (mem mem' : Mem) (base : Loc) : Prop where
  data : ∀ x < n * cs, mem' (base.add x) = mem₀ (bufferLoc buffer (pos + x))
  frame : ∀ l, Below straddles parity l → mem' l = mem l
  region : ∀ x y, base.add x ≠ .parity y

theorem dataReady_quick {pos straddles tbv p} (hblock : Toolbox.IsBlock buffer pos (n * cs) tbv)
    (hin : pos + n * cs ≤ (addresses buffer.iov).length)
    (huser : ∀ a, mem (.user a) = mem₀ (.user a)) (hquick : quickBase (n * cs) tbv = some p) :
    DataReady n cs buffer mem₀ pos straddles parity mem mem p := by
  obtain ⟨a, rfl, ha⟩ := quickBase_spec hblock hin hquick
  refine ⟨fun x hx => ?_, fun _ _ => rfl, fun x y h => by cases h⟩
  rw [bufferLoc, getD_eq_getElem?_getD, ha x hx, Option.getD_some]
  exact huser _

theorem dataReady_straddle {pos straddles} (huser : ∀ a, mem (.user a) = mem₀ (.user a)) :
    DataReady n cs buffer mem₀ pos straddles parity mem
      (copyIn buffer (n * cs) straddles pos mem) (.straddle straddles 0) := by
  refine ⟨fun x hx => ?_, fun l hl => ?_, fun x y h => by cases h⟩
  · change copyIn buffer (n * cs) straddles pos mem (.straddle straddles (0 + x)) = _
    rw [zero_add, copyIn_inside hx]
    exact huser _
  · refine copyIn_outside fun i heq => ?_
    rw [heq] at hl
    exact lt_irrefl _ hl

/-- The parity chunks are written behind the parity in use. -/
theorem encode_frame {base} {w : Word n m cs} {l} (hl : ∀ y, l = .parity y → y < parity) :
    writeAll ((List.finRange m).flatMap fun j =>
      chunkWrites (stripeBases n m cs base parity (Fin.natAdd n j)) (w (Fin.natAdd n j))) mem l =
      mem l := by
  refine writeChunks_outside fun j _ x _ heq => ?_
  rw [stripeBases_parity] at heq
  have := hl _ heq.symm
  omega

theorem encode_parity {base} {w : Word n m cs} (j : Fin m) :
    chunkAt (writeAll ((List.finRange m).flatMap fun j =>
      chunkWrites (stripeBases n m cs base parity (Fin.natAdd n j)) (w (Fin.natAdd n j))) mem)
      (stripeBases n m cs base parity (Fin.natAdd n j)) = w (Fin.natAdd n j) := by
  refine writeChunks_at (mem_finRange j) fun j' _ x' x heq => ?_
  simp only [stripeBases_parity, Loc.add, Loc.parity.injEq] at heq
  obtain ⟨hj, hx⟩ := mul_add_inj x'.isLt x.isLt
    (show j'.val * cs + x'.val = j.val * cs + x.val by omega)
  obtain rfl : j' = j := Fin.ext hj
  obtain rfl : x' = x := Fin.ext hx
  rfl

section

variable (htot : buffer.totalBytes = Toolbox.totalLen buffer.iov)
  (hbytes : buffer.totalBytes ≤ 2147483648)
include htot hbytes

theorem stripe_addWriteStripe {pos : Nat} (hsize : 1 ≤ n * cs)
    (hroom : pos + n * cs ≤ buffer.totalBytes) (htbv : st.tbv.Valid buffer)
    (huser : ∀ a, st.mem (.user a) = mem₀ (.user a)) :
    ∃ base, Stripe s buffer mem₀ pos st (addWriteStripe s buffer pos st) base := by
  have hblock := nextStripe_spec htot hbytes htbv hsize hroom
  have hlen : pos + n * cs ≤ (addresses buffer.iov).length := by
    rw [Toolbox.length_addresses, ← htot]
    exact hroom
  obtain ⟨tbv', htbv'⟩ : ∃ x, x = nextStripe (n * cs) buffer pos st.tbv := ⟨_, rfl⟩
  obtain ⟨quick, hq⟩ : ∃ x, x = quickBase (n * cs) tbv' := ⟨_, rfl⟩
  obtain ⟨mem, hmem⟩ : ∃ x, x =
    if quick.isSome then st.mem else copyIn buffer (n * cs) st.straddleUsed pos st.mem := ⟨_, rfl⟩
  obtain ⟨base, hbase⟩ : ∃ x, x = quick.getD (.straddle st.straddleUsed 0) := ⟨_, rfl⟩
  rw [← htbv'] at hblock
  have hready : DataReady n cs buffer mem₀ pos st.straddleUsed st.parityUsed st.mem mem base := by
    cases hcase : quick with
    | some p =>
      rw [hcase] at hmem hbase
      rw [hmem, hbase]
      exact dataReady_quick hblock hlen huser (hq.symm.trans hcase)
    | none =>
      rw [hcase] at hmem hbase
      rw [hmem, hbase]
      exact dataReady_straddle huser
  have hbelow : ∀ x, Below (if quick.isSome then st.straddleUsed else st.straddleUsed + 1)
      (st.parityUsed + m * cs) (base.add x) := by
    intro x
    cases hcase : quick with
    | some p =>
      obtain ⟨a, rfl, -⟩ := quickBase_spec hblock hlen (hq.symm.trans hcase)
      rw [hbase, hcase]
      trivial
    | none =>
      rw [hbase, hcase]
      exact Nat.lt_succ_self _
  have hdata : (fun i : Fin n => (chunkAt mem (stripeBases n m cs base st.parityUsed
      (Fin.castAdd m i)) : Chunk cs)) = stripeData n cs buffer mem₀ pos := by
    funext i x
    rw [chunkAt, stripeBases_data, Loc.add_add, hready.data _ (mul_add_lt i.isLt x.isLt), stripeData]
  obtain ⟨mem', hmem'⟩ : ∃ x, x = writeAll ((List.finRange m).flatMap fun j =>
    chunkWrites (stripeBases n m cs base st.parityUsed (Fin.natAdd n j))
      (wordAt s buffer mem₀ pos (Fin.natAdd n j))) mem := ⟨_, rfl⟩
  have hword : ∀ k, chunkAt mem' (stripeBases n m cs base st.parityUsed k) =
      wordAt s buffer mem₀ pos k := by
    intro k
    refine Fin.addCases (fun i => ?_) (fun j => ?_) k
    · rw [wordAt, s.plan.encode_data, ← hdata, hmem']
      funext x
      refine encode_frame fun y hy => ?_
      rw [stripeBases_data, Loc.add_add] at hy
      exact absurd hy (hready.region _ _)
    · rw [hmem']
      exact encode_parity j
  have hstate : addWriteStripe s buffer pos st = { st with
      tbv := tbv'
      straddleUsed := if quick.isSome then st.straddleUsed else st.straddleUsed + 1
      iov := st.iov ++ (List.finRange (n + m)).map fun k =>
        ⟨st.currStripe, stripeBases n m cs base st.parityUsed k⟩
      magic := update st.magic st.currStripe (jeCksumCalc (wordAt s buffer mem₀ pos))
      mem := mem'
      parityUsed := st.parityUsed + m * cs
      currStripe := st.currStripe + 1 } := by
    have hsum : (fun k => (chunkAt mem' (stripeBases n m cs base st.parityUsed k) : Chunk cs)) =
        wordAt s buffer mem₀ pos := funext hword
    rw [addWriteStripe, ← htbv', ← hq, ← hbase, ← hmem]
    simp only [hdata]
    rw [show s.plan.encode (stripeData n cs buffer mem₀ pos) = wordAt s buffer mem₀ pos from rfl,
      ← hmem', hsum]
  refine ⟨base, ?_⟩
  rw [hstate]
  refine ⟨hblock.valid, ?_, rfl, fun l hl => ?_, rfl, rfl, hword, fun k x hx => ?_, rfl, rfl⟩
  · change st.straddleUsed ≤ if quick.isSome then st.straddleUsed else st.straddleUsed + 1
    split <;> omega
  · rw [← hready.frame l hl]
    rw [hmem']
    refine encode_frame fun y hy => ?_
    rw [hy] at hl
    exact hl
  · refine Fin.addCases (fun i => ?_) (fun j => ?_) k
    · rw [stripeBases_data, Loc.add_add]
      exact hbelow _
    · rw [stripeBases_parity]
      change st.parityUsed + j.val * cs + x < st.parityUsed + m * cs
      have := mul_add_lt j.isLt hx
      omega

theorem Encoded.step (hsize : 1 ≤ n * cs)
    (hroom : boff + (count + 1) * (n * cs) ≤ buffer.totalBytes)
    (hparity : st.parityUsed = st.currStripe * (m * cs))
    (h : Encoded s buffer mem₀ boff st count st') :
    Encoded s buffer mem₀ boff st (count + 1)
      (addWriteStripe s buffer (boff + count * (n * cs)) st') := by
  rw [Nat.succ_mul] at hroom
  obtain ⟨base, hs⟩ := stripe_addWriteStripe (s := s) htot hbytes hsize
    (show boff + count * (n * cs) + n * cs ≤ buffer.totalBytes by omega) h.tbv h.user
  generalize addWriteStripe s buffer (boff + count * (n * cs)) st' = st'' at hs
  have hused : st.parityUsed ≤ st'.parityUsed := by
    rw [hparity, h.parity, h.row]
    exact Nat.mul_le_mul_right _ (Nat.le_add_right _ _)
  constructor
  · exact hs.tbv
  · rw [hs.row, h.row]
    omega
  · rw [hs.parity, hs.row, h.parity, Nat.succ_mul]
  · rw [hs.iov, length_append, length_map, length_finRange, h.length, hs.row,
      Nat.succ_mul]
  · obtain ⟨more, hmore⟩ := h.entries
    exact ⟨_, by rw [hs.iov, hmore, append_assoc]⟩
  · intro a
    rw [hs.frame (.user a) trivial, h.user a]
  · exact le_trans h.straddles hs.straddles
  · intro l hl
    rw [hs.frame l (hl.mono h.straddles hused), h.frame l hl]
  · intro r hr
    rw [hs.magic, update_of_ne (by rw [h.row]; omega), h.magicFrame r hr]
  · intro t ht
    rw [hs.magic]
    by_cases htc : t = count
    · rw [htc, ← h.row, update_self]
    · rw [update_of_ne (by rw [h.row]; omega), h.magic t (by omega)]
  · intro t ht k
    by_cases htc : t = count
    · subst htc
      refine ⟨_, ?_, hs.word k, hs.below k⟩
      rw [← h.row, ← h.length, hs.iov, List.getElem?_append_right (by omega),
        Nat.add_sub_cancel_left, List.getElem?_map, List.getElem?_eq_getElem (by simp),
        getElem_finRange]
      rfl
    · obtain ⟨b, hget, hchunk, hb⟩ := h.entry t (by omega) k
      refine ⟨b, ?_, ?_, fun x hx => (hb x hx).mono hs.straddles (by rw [hs.parity]; omega)⟩
      · rw [hs.iov, List.getElem?_append_left (List.getElem?_eq_some_iff.mp hget).1, hget]
      · rw [← hchunk]
        exact funext fun x => hs.frame _ (hb x.val x.isLt)
  · rw [hs.same, h.same]

theorem encoded_addWriteStripes (hsize : 1 ≤ n * cs) (htbv : st.tbv.Valid buffer)
    (hlen : st.iov.length = st.currStripe * (n + m))
    (hparity : st.parityUsed = st.currStripe * (m * cs))
    (huser : ∀ a, st.mem (.user a) = mem₀ (.user a)) (count : Nat)
    (hroom : boff + count * (n * cs) ≤ buffer.totalBytes) :
    Encoded s buffer mem₀ boff st count (addWriteStripes s buffer count boff st) := by
  induction count with
  | zero =>
    exact ⟨htbv, rfl, hparity, hlen, ⟨[], by simp [addWriteStripes]⟩, huser, le_rfl,
      fun _ _ => rfl, fun _ _ => rfl, fun t ht => absurd ht (Nat.not_lt_zero t),
      fun t ht => absurd ht (Nat.not_lt_zero t), rfl⟩
  | succ count ih =>
    rw [addWriteStripes_concat]
    have hless : count * (n * cs) ≤ (count + 1) * (n * cs) :=
      Nat.mul_le_mul_right _ (Nat.le_succ _)
    exact (ih (by omega)).step htot hbytes hsize hroom hparity

end

/-- No stripe occurs twice in the request. -/
def RwReq.Distinct (n cs : Nat) (q : RwReq) : Prop :=
  ∀ (j j' : Nat) v v', q.iov[j]? = some v → q.iov[j']? = some v' →
    ∀ u < nstripes n cs v, ∀ u' < nstripes n cs v',
      firstStripe n cs v + u = firstStripe n cs v' + u' → j = j'

/-- What a write leaves of the `u`-th stripe of a range. -/
def written (s : Segjerase n m cs) (q : RwReq) (fails : Finset (Fin (n + m))) (mem : Mem)
    (store : Nat → Cell cs) (j : Nat) (v : ExIovec) (u : Nat) (k : Fin (n + m)) : Cell cs :=
  if k ∈ fails then store ((firstStripe n cs v + u) * (n + m) + k.val)
  else
    let w := wordAt s q.buffer mem (q.posAt n cs j + u * (n * cs))
    ⟨jeCksumCalc w, w k⟩

/-- Stripe `c` is as some range of the request leaves it. -/
def LeftBy (s : Segjerase n m cs) (q : RwReq) (fails : Finset (Fin (n + m))) (mem : Mem)
    (store store' : Nat → Cell cs) (c : Nat) : Prop :=
  ∃ j v u, q.iov[j]? = some v ∧ u < nstripes n cs v ∧ firstStripe n cs v + u = c ∧
    ∀ k : Fin (n + m), store' (c * (n + m) + k.val) = written s q fails mem store j v u k

/-- An operation under way: its stripes are encoded in the arrays from row `row` on. -/
structure Waiting (s : Segjerase n m cs) (q : RwReq) (mem₀ : Mem) (st : WriteState n m cs) (j : Nat)
    (v : ExIovec) (row : Nat) : Prop where
  info : st.info[j]? = some ⟨firstStripe n cs v * (n + m), row * (n + m), nstripes n cs v,
    nstripes n cs v * (n + m)⟩
  rows : row + nstripes n cs v ≤ st.currStripe
  magic : ∀ t < nstripes n cs v, st.magic (row + t) =
    jeCksumCalc (wordAt s q.buffer mem₀ (q.posAt n cs j + t * (n * cs)))
  entry : ∀ t < nstripes n cs v, ∀ k : Fin (n + m), ∃ base,
    st.iov[(row + t) * (n + m) + k.val]? = some ⟨row + t, base⟩ ∧
    chunkAt st.mem base = wordAt s q.buffer mem₀ (q.posAt n cs j + t * (n * cs)) k ∧
    ∀ x < cs, Below st.straddleUsed st.parityUsed (base.add x)

/-- The invariant of a write that has submitted `i` operations, of which those in `pend` are
under way. -/
structure Writing (s : Segjerase n m cs) (q : RwReq) (fails : Finset (Fin (n + m))) (mem₀ : Mem)
    (store₀ : Nat → Cell cs) (st : WriteState n m cs) (i : Nat) (pend : List Nat) : Prop where
  info : st.info.length = i
  bytes : q.boff + st.currBytes = q.posAt n cs i
  tbv : st.tbv.Valid q.buffer
  rows : st.iov.length = st.currStripe * (n + m)
  parity : st.parityUsed = st.currStripe * (m * cs)
  user : ∀ a, st.mem (.user a) = mem₀ (.user a)
  nodup : pend.Nodup
  waiting : ∀ j ∈ pend, ∃ v row, q.iov[j]? = some v ∧ Waiting s q mem₀ st j v row
  stored : ∀ j < i, j ∉ pend → ∀ v, q.iov[j]? = some v → ∀ u < nstripes n cs v,
    LeftBy s q fails mem₀ store₀ st.store (firstStripe n cs v + u)
  other : ∀ c, (∀ j < i, j ∉ pend → ∀ v, q.iov[j]? = some v → ∀ u < nstripes n cs v,
      firstStripe n cs v + u ≠ c) →
    ∀ k : Fin (n + m), st.store (c * (n + m) + k.val) = store₀ (c * (n + m) + k.val)
  hard : fails.card ≤ m → st.hardError = false

variable {fails : Finset (Fin (n + m))} {store₀ : Nat → Cell cs} {pend rest : List Nat}

theorem Writing.perm (h : Writing s q fails mem₀ store₀ st i pend) (hperm : rest.Perm pend) :
    Writing s q fails mem₀ store₀ st i rest :=
  { h with
    nodup := hperm.nodup_iff.mpr h.nodup
    waiting j hj := h.waiting j (hperm.mem_iff.mp hj)
    stored j hj hmem := h.stored j hj (mt hperm.mem_iff.mpr hmem)
    other c hc := h.other c fun j hj hmem => hc j hj (mt hperm.mem_iff.mp hmem) }

variable (fails) in
/-- The single writes to the child segment of an operation under way. -/
theorem Waiting.mem_writes {row} (h : Waiting s q mem₀ st j v row) (e : Nat × Cell cs) :
    e ∈ ((((st.iov.drop (row * (n + m))).take (nstripes n cs v * (n + m))).zipIdx.filter fun e =>
        !decide (∃ k ∈ fails, k.val = e.2 % (n + m))).map fun e =>
          (firstStripe n cs v * (n + m) + e.2,
            (⟨st.magic e.1.magic, chunkAt st.mem e.1.base⟩ : Cell cs))) ↔
      ∃ t < nstripes n cs v, ∃ k : Fin (n + m), k ∉ fails ∧
        e = ((firstStripe n cs v + t) * (n + m) + k.val,
          ⟨jeCksumCalc (wordAt s q.buffer mem₀ (q.posAt n cs j + t * (n * cs))),
            wordAt s q.buffer mem₀ (q.posAt n cs j + t * (n * cs)) k⟩) := by
  have hentry : ∀ t < nstripes n cs v, ∀ k : Fin (n + m), ∃ base,
      ((st.iov.drop (row * (n + m))).take (nstripes n cs v * (n + m)))[t * (n + m) + k.val]? =
        some ⟨row + t, base⟩ ∧
      chunkAt st.mem base = wordAt s q.buffer mem₀ (q.posAt n cs j + t * (n * cs)) k := by
    intro t ht k
    obtain ⟨base, hget, hchunk, -⟩ := h.entry t ht k
    refine ⟨base, ?_, hchunk⟩
    rw [List.getElem?_take_of_lt (mul_add_lt ht k.isLt), List.getElem?_drop, ← hget, add_mul,
      add_assoc]
  have hindex : ∀ t (k : Fin (n + m)), firstStripe n cs v * (n + m) + (t * (n + m) + k.val) =
      (firstStripe n cs v + t) * (n + m) + k.val := by
    intro t k
    rw [add_mul, add_assoc]
  rw [mem_map]
  constructor
  · rintro ⟨⟨x, p⟩, hmem, rfl⟩
    obtain ⟨hzip, hok⟩ := mem_filter.mp hmem
    rw [mem_zipIdx_iff_getElem?] at hzip
    have hp : p < nstripes n cs v * (n + m) :=
      Nat.lt_of_lt_of_le (List.getElem?_eq_some_iff.mp hzip).1 (length_take_le _ _)
    have hpos : 0 < n + m := Nat.pos_of_mul_pos_left (Nat.lt_of_le_of_lt (Nat.zero_le _) hp)
    have ht : p / (n + m) < nstripes n cs v := Nat.div_lt_of_lt_mul (by rwa [Nat.mul_comm])
    obtain ⟨k, hk⟩ : ∃ k : Fin (n + m), k.val = p % (n + m) := ⟨⟨_, Nat.mod_lt _ hpos⟩, rfl⟩
    obtain ⟨t, htp⟩ : ∃ t, t = p / (n + m) := ⟨_, rfl⟩
    have hsplit : t * (n + m) + k.val = p := by
      rw [hk, htp]
      exact Nat.div_add_mod' p (n + m)
    rw [← htp] at ht
    obtain ⟨base, hget, hchunk⟩ := hentry t ht k
    rw [hsplit] at hget
    obtain rfl := Option.some.inj (hzip.symm.trans hget)
    refine ⟨t, ht, k, ?_, ?_⟩
    · rw [← exists_mem_mod t k, hsplit]
      simpa using hok
    · rw [← hindex, hsplit, h.magic t ht, hchunk]
  · rintro ⟨t, ht, k, hk, rfl⟩
    obtain ⟨base, hget, hchunk⟩ := hentry t ht k
    refine ⟨(⟨row + t, base⟩, t * (n + m) + k.val),
      mem_filter.mpr ⟨mem_zipIdx_iff_getElem?.mpr hget, ?_⟩, ?_⟩
    · rw [Bool.not_eq_true', decide_eq_false_iff_not, exists_mem_mod]
      exact hk
    · rw [hindex, h.magic t ht, hchunk]

/-- A device that fails keeps what it held before the write. -/
theorem Writing.unchanged (h : Writing s q fails mem₀ store₀ st i pend) {k} (hk : k ∈ fails)
    (c : Nat) : st.store (c * (n + m) + k.val) = store₀ (c * (n + m) + k.val) := by
  by_cases hc : ∃ j < i, j ∉ pend ∧ ∃ v, q.iov[j]? = some v ∧ ∃ u < nstripes n cs v,
      firstStripe n cs v + u = c
  · obtain ⟨j, hj, hpend, v, hv, u, hu, rfl⟩ := hc
    obtain ⟨j', v', u', -, -, heq, hleft⟩ := h.stored j hj hpend v hv u hu
    rw [hleft k, written, if_pos hk, heq]
  · apply h.other c
    intro j hj hpend v hv u hu heq
    exact hc ⟨j, hj, hpend, v, hv, u, hu, heq⟩

/-- Finishing an operation. -/
theorem Writing.finish (h : Writing s q fails mem₀ store₀ st i (j :: rest)) :
    Writing s q fails mem₀ store₀ (finishWrite fails st j) i rest := by
  obtain ⟨v, row, hv, hwait⟩ := h.waiting j (by simp)
  have hnodup := nodup_cons.mp h.nodup
  have hji : j < i := by
    rw [← h.info]
    exact (List.getElem?_eq_some_iff.mp hwait.info).1
  obtain ⟨store', hstore'⟩ : ∃ x, x = childWrite (fun k => decide (∃ j ∈ fails, j.val = k)) (n + m)
    (firstStripe n cs v * (n + m))
    ((st.iov.drop (row * (n + m))).take (nstripes n cs v * (n + m))) st.mem st.magic st.store :=
    ⟨_, rfl⟩
  have hwrites := hwait.mem_writes fails
  have hthis : ∀ u < nstripes n cs v, ∀ k : Fin (n + m),
      store' ((firstStripe n cs v + u) * (n + m) + k.val) =
        written s q fails mem₀ store₀ j v u k := by
    intro u hu k
    rw [hstore', childWrite, written]
    split_ifs with hk
    · rw [writeAll_of_notMem]
      · exact h.unchanged hk _
      · intro e he heq
        obtain ⟨t, ht, k', hk', rfl⟩ := (hwrites e).mp he
        obtain ⟨-, hkk⟩ := mul_add_inj k'.isLt k.isLt heq
        exact hk' (by rwa [Fin.ext hkk])
    · apply writeAll_eq
      · exact (hwrites _).mpr ⟨u, hu, k, hk, rfl⟩
      · intro e he heq
        obtain ⟨t, ht, k', hk', rfl⟩ := (hwrites e).mp he
        obtain ⟨hrow, hkk⟩ := mul_add_inj k'.isLt k.isLt heq
        obtain rfl : t = u := by omega
        obtain rfl : k' = k := Fin.ext hkk
        rfl
  have hother : ∀ c, (∀ u < nstripes n cs v, firstStripe n cs v + u ≠ c) → ∀ k : Fin (n + m),
      store' (c * (n + m) + k.val) = st.store (c * (n + m) + k.val) := by
    intro c hc k
    rw [hstore', childWrite]
    apply writeAll_of_notMem
    intro e he heq
    obtain ⟨t, ht, k', hk', rfl⟩ := (hwrites e).mp he
    exact hc t ht (mul_add_inj k'.isLt k.isLt heq).1
  rw [finishWrite, hwait.info]
  simp only [← hstore']
  refine ⟨h.info, h.bytes, h.tbv, h.rows, h.parity, h.user, hnodup.2, ?_, ?_, ?_, ?_⟩
  · intro j' hj'
    obtain ⟨v', row', hv', hw⟩ := h.waiting j' (by simp [hj'])
    exact ⟨v', row', hv', hw.info, hw.rows, hw.magic, hw.entry⟩
  · intro j' hj' hrest w hw u hu
    by_cases hin : ∃ t < nstripes n cs v, firstStripe n cs v + t = firstStripe n cs w + u
    · obtain ⟨t, ht, heq⟩ := hin
      rw [← heq]
      exact ⟨j, v, t, hv, ht, rfl, hthis t ht⟩
    · have hjj : j' ≠ j := by
        rintro rfl
        obtain rfl : v = w := Option.some.inj (hv.symm.trans hw)
        exact hin ⟨u, hu, rfl⟩
      obtain ⟨j₁, v₁, u₁, hv₁, hu₁, heq, hleft⟩ := h.stored j' hj' (by simp [hjj, hrest]) w hw u hu
      refine ⟨j₁, v₁, u₁, hv₁, hu₁, heq, fun k => ?_⟩
      rw [← hleft k]
      exact hother _ (fun t ht heq => hin ⟨t, ht, heq⟩) k
  · intro c hc k
    refine (hother c (hc j hji hnodup.1 v hv) k).trans (h.other c (fun j' hj' hpend w hw => ?_) k)
    exact hc j' hj' (fun hr => hpend (by simp [hr])) w hw
  · intro hfew
    rw [h.hard hfew, Bool.false_or, decide_eq_false_iff_not]
    split <;> omega

theorem Writing.finishAll (pend : List Nat) (h : Writing s q fails mem₀ store₀ st i pend) :
    Writing s q fails mem₀ store₀ (pend.foldl (finishWrite fails) st) i [] := by
  induction pend generalizing st with
  | nil => exact h
  | cons j rest ih => exact ih h.finish

theorem Writing.flush (sch : Schedule) (h : Writing s q fails mem₀ store₀ st i st.queue) :
    Writing s q fails mem₀ store₀ (flushWrites fails sch st) i [] := by
  have hall := (h.perm (sch.perm st.queue)).finishAll
  rw [flushWrites]
  generalize (sch.order st.queue).foldl (finishWrite fails) st = st' at hall
  exact ⟨hall.info, hall.bytes, hall.tbv, by simp, by simp, hall.user, nodup_nil, by simp,
    hall.stored, hall.other, hall.hard⟩

variable {fails : Finset (Fin (n + m))}

/-- Submitting an operation. -/
theorem Writing.add (hcs : 0 < cs) (hpos : 0 < n) (hq : q.Fits n m cs) (hv : q.iov[i]? = some v)
    (h : Writing s q fails mem₀ store₀ st i st.queue) :
    Writing s q fails mem₀ store₀ (addWrite s q v st) (i + 1) (addWrite s q v st).queue := by
  have hroom := hq.room_at hv
  rw [Toolbox.length_addresses, ← hq.total, ← h.bytes] at hroom
  have henc : Encoded s q.buffer mem₀ (q.boff + st.currBytes) st (nstripes n cs v) _ :=
    encoded_addWriteStripes hq.total hq.bytes (Nat.mul_pos hpos hcs) h.tbv h.rows h.parity h.user
      (nstripes n cs v) hroom
  have hqueue : (addWrite s q v st).queue = st.queue ++ [i] := by
    rw [← h.info]
    rfl
  have hlt : ∀ j ∈ st.queue, j < i := by
    intro j hj
    obtain ⟨w, row, -, hw⟩ := h.waiting j hj
    rw [← h.info]
    exact (List.getElem?_eq_some_iff.mp hw.info).1
  obtain ⟨hnodup, hdone⟩ := queue_concat h.nodup hlt
  rw [hqueue, addWrite]
  generalize addWriteStripes s q.buffer (nstripes n cs v) (q.boff + st.currBytes) st = st' at henc
  have hst' := henc.same
  have hstore : st'.store = st.store := by rw [hst']
  have hhard : st'.hardError = st.hardError := by rw [hst']
  have hused : st.parityUsed ≤ st'.parityUsed := by
    rw [h.parity, henc.parity, henc.row]
    exact Nat.mul_le_mul_right _ (Nat.le_add_right _ _)
  obtain ⟨fresh, hfresh⟩ := henc.entries
  constructor
  · simp [h.info]
  · change q.boff + (st.currBytes + v.len.toNat) = _
    rw [RwReq.posAt_succ hv, ← h.bytes, hq.toNat_len (mem_of_getElem? hv)]
    omega
  · exact henc.tbv
  · exact henc.length
  · exact henc.parity
  · exact henc.user
  · exact hnodup
  · intro j hj
    rcases mem_append.mp hj with hj | hj
    · obtain ⟨w, row, hw, hwait⟩ := h.waiting j hj
      refine ⟨w, row, hw, ?_, ?_, ?_, ?_⟩
      · rw [List.getElem?_append_left (by rw [h.info]; exact hlt j hj), hwait.info]
      · have := hwait.rows
        rw [henc.row]
        omega
      · intro t ht
        have := hwait.rows
        rw [← hwait.magic t ht]
        exact henc.magicFrame _ (by omega)
      · intro t ht k
        obtain ⟨base, hget, hchunk, hbelow⟩ := hwait.entry t ht k
        refine ⟨base, ?_, ?_, fun x hx => (hbelow x hx).mono henc.straddles hused⟩
        · rw [hfresh, List.getElem?_append_left (List.getElem?_eq_some_iff.mp hget).1, hget]
        · rw [← hchunk]
          exact funext fun x => henc.frame _ (hbelow x.val x.isLt)
    · obtain rfl : j = i := mem_singleton.mp hj
      refine ⟨v, st.currStripe, hv, ?_, ?_, ?_, ?_⟩
      · rw [← h.info, List.getElem?_append_right le_rfl, Nat.sub_self, h.rows,
          hq.childCells_eq (mem_of_getElem? hv)]
        rfl
      · exact Nat.le_of_eq henc.row.symm
      · rw [← h.bytes]
        exact henc.magic
      · rw [← h.bytes]
        exact henc.entry
  · intro j hj hnot w hw u hu
    obtain ⟨hji, hnq⟩ := (hdone j).mp ⟨hj, hnot⟩
    obtain ⟨j₁, v₁, u₁, hv₁, hu₁, heq, hleft⟩ := h.stored j hji hnq w hw u hu
    refine ⟨j₁, v₁, u₁, hv₁, hu₁, heq, fun k => ?_⟩
    rw [← hleft k, ← hstore]
  · intro c hc k
    have hold := h.other c fun j hj hnot =>
      hc j (by omega) ((hdone j).mpr ⟨hj, hnot⟩).2
    rw [← hold k, ← hstore]
  · intro hfew
    rw [← h.hard hfew, ← hhard]

theorem Writing.loop (hcs : 0 < cs) (hpos : 0 < n) (hq : q.Fits n m cs)
    (sch : Schedule) (len : Int) (vs : List ExIovec) (hvs : q.iov.drop i = vs)
    (hi : i ≤ q.iov.length) (h : Writing s q fails mem₀ store₀ st i st.queue) :
    Writing s q fails mem₀ store₀ (writeLoop s fails sch q len vs st) q.iov.length [] := by
  induction vs generalizing i st with
  | nil =>
    obtain rfl : i = q.iov.length := le_antisymm hi (drop_eq_nil_iff.mp hvs)
    exact h.flush sch
  | cons v vs ih =>
    obtain ⟨hv, hrest⟩ := getElem?_of_drop hvs
    refine ih hrest (List.getElem?_eq_some_iff.mp hv).1 (Writing.add hcs hpos hq hv ?_)
    split
    · exact h.flush sch
    · exact h

/-- One pass of a write: the stripes of the request are as one of its ranges leaves them, the
others as they were. -/
theorem writeAttempt_spec (hcs : 0 < cs) (hpos : 0 < n) (hq : q.Fits n m cs)
    (fails : Finset (Fin (n + m))) (sch : Schedule) (mem : Mem) (magic : Nat → Magic)
    (store : Nat → Cell cs) :
    Writing s q fails mem store (writeAttempt s fails sch q mem magic store) q.iov.length [] := by
  have hstart : Writing s q fails mem store
      (⟨[], 0, 0, 0, TbufVar.init, 0, [], [], mem, magic, store, false, false⟩ : WriteState n m cs) 0
      [] :=
    ⟨rfl, (q.posAt_zero n cs).symm, TbufVar.valid_init _, by simp, by simp, fun _ => rfl,
      nodup_nil, by simp, fun j hj => absurd hj (Nat.not_lt_zero j), fun _ _ _ => rfl,
      fun _ => rfl⟩
  exact hstart.loop hcs hpos hq sch (parityLen s q.iov) q.iov rfl (Nat.zero_le _)

/-- A write that at most `m` devices fail succeeds, and leaves every stripe of the request
on the other devices. -/
theorem segjeraseWriteFunc_spec (hcs : 0 < cs) (hpos : 0 < n) (hq : q.Ok n m cs)
    (hdistinct : q.Distinct n cs) (hfew : fails.card ≤ m) (sch : Schedule) (mem : Mem)
    (magic : Nat → Magic) (store : Nat → Cell cs) :
    (segjeraseWriteFunc s (fun _ => fails) sch q mem magic store).ok = true ∧
    (∀ j v, q.iov[j]? = some v → ∀ u < nstripes n cs v, ∀ k : Fin (n + m),
      (segjeraseWriteFunc s (fun _ => fails) sch q mem magic store).store
          ((firstStripe n cs v + u) * (n + m) + k.val) =
        written s q fails mem store j v u k) := by
  have hend := writeAttempt_spec (s := s) hcs hpos hq.toFits fails sch mem magic store
  have hhard : (writeAttempt s fails sch q mem magic store).hardError = false := hend.hard hfew
  rw [segjeraseWriteFunc]
  simp only [hhard, Bool.false_and, Bool.false_eq_true, if_false, Bool.not_false]
  refine ⟨trivial, fun j v hv u hu k => ?_⟩
  obtain ⟨j', v', u', hv', hu', heq, hleft⟩ :=
    hend.stored j (List.getElem?_eq_some_iff.mp hv).1 (by simp) v hv u hu
  obtain rfl := hdistinct j' j v' v hv' hv u' hu' u hu heq
  obtain rfl : v' = v := Option.some.inj (hv'.symm.trans hv)
  obtain rfl : u' = u := by omega
  exact hleft k

end LStore.Jerasure
