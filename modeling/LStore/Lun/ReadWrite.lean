import LStore.Lun.Decompose

/-!
# Vectored reads and writes of a LUN segment

`seglun_rw_op` of `src/lio/segment/lun.c` decomposes every entry of a vectored
request over the rows it meets, collects one request for each device of each row,
and runs them. Seen from outside the segment is a flat array of bytes.

## Implementation notes

The tables `bused` and `rwb_table` start on the stack with 100 entries and grow
with the number of rows, while `rwb_table` is indexed by row and device. The model
keeps the number of entries `rwb_table` has; clearing entries behind its end is
`none`. A row is its own index, `rwop_index` being the place of the row among the
rows in use. Blacklisting and the remapping of capabilities are left out, and every
device request succeeds; they run in any order.
-/

namespace LStore.Lun

open ByteSpan IntervalList LStore.Toolbox List

variable {target : List (Int × Int)}

abbrev Byte := UInt8

/-- A row in use, with the requests of its devices. -/
structure RowSlot where
  row : SeglunRow
  rwBuf : Nat → LunRwRow

/-- `bused` and `rwb_table`, `isl_size`, and the number of entries of `rwb_table`. -/
structure RwTable where
  slots : List RowSlot
  islSize : Nat
  entries : Nat

/-- The tables on the stack. -/
def RwTable.onStack : RwTable := ⟨[], 100, 100⟩

def RwTable.rows (t : RwTable) : List SeglunRow := t.slots.map RowSlot.row

variable (g : Geometry) (nShift : Nat) (rows : List SeglunRow) (buffer : Tbuf)

/-- "Need to grow the tables": with one more row in use. -/
def RwTable.grow (t : RwTable) : RwTable :=
  if t.islSize ≤ t.slots.length + 1 then
    let islSize := 3 * t.islSize / 2 + 10
    { t with islSize := islSize, entries := g.nDevices * islSize }
  else t

/-- The tables with row `b` in use. -/
def RwTable.useRow (t : RwTable) (b : SeglunRow) : Option RwTable :=
  if b ∈ t.rows then some t
  else
    let t := t.grow g
    if t.entries < (t.slots.length + 1) * g.nDevices then none
    else some { t with slots := t.slots ++ [⟨b, fun _ => LunRwRow.zero⟩] }

/-- Decompose a part of row `b` into its slot. -/
def RwTable.decompose (t : RwTable) (b : SeglunRow) (start bpos blen : Int) : RwTable :=
  { t with slots := t.slots.map fun s =>
      if s.row = b then
        { s with rwBuf := lunRowDecompose g nShift buffer s.rwBuf start bpos blen }
      else s }

/-- One row of one entry: the tables and the buffer position behind it. -/
def rwRow (lo hi : Int) (st : RwTable × Int) (b : SeglunRow) : Option (RwTable × Int) :=
  let start := if lo ≤ b.segOffset then 0 else lo - b.segOffset
  let last := if b.segEnd ≤ hi then b.rowLen - 1 else hi - b.segOffset
  let blen := last - start + 1
  (st.1.useRow g b).map fun t => (t.decompose g nShift buffer b start st.2 blen, st.2 + blen)

/-- One entry of the request. -/
def rwEntry (st : RwTable × Int) (v : ExIovec) : Option (RwTable × Int) :=
  let lo := v.offset
  let hi := lo + v.len - 1
  (search lo hi rows).foldlM (rwRow g nShift buffer lo hi) st

/-- The first loop of `seglun_rw_op`. -/
def assemble (iov : List ExIovec) (boff : Int) : Option (RwTable × Int) :=
  iov.foldlM (rwEntry g nShift rows buffer) (RwTable.onStack, boff)

/-- A request to one device of one row. -/
structure DeviceOp where
  row : SeglunRow
  dev : Nat
  extents : List ExIovec
  pieces : List Iovec
deriving DecidableEq, Repr

/-- The operation of a table entry: with one memory piece a plain read or write at the
first extent, otherwise a vectored one. -/
def deviceOp (row : SeglunRow) (i : Nat) (r : LunRwRow) : Option DeviceOp :=
  match r.exIov with
  | [] => none
  | e :: es => some ⟨row, i, if r.iov.length = 1 then [⟨e.offset, r.len⟩] else e :: es, r.iov⟩

/-- "Assemble the sub tasks". -/
def deviceOps (g : Geometry) (t : RwTable) : List DeviceOp :=
  t.slots.flatMap fun s => (List.range g.nDevices).filterMap fun i => deviceOp s.row i (s.rwBuf i)

/-- The blocks of the rows: row, device, offset. -/
abbrev Devices := SeglunRow × Nat → Int → Byte

namespace DeviceOp

def key (op : DeviceOp) : SeglunRow × Nat := (op.row, op.dev)

/-- The transfers of an operation, byte by byte: device offset and memory address. -/
def transfers (op : DeviceOp) : List (Int × Int) :=
  (extentBytes op.extents).zip (addresses op.pieces)

/-- A write from memory to the device. -/
def write (mem : Int → Byte) (devs : Devices) (op : DeviceOp) : Devices :=
  Function.update devs op.key
    (writeAll (op.transfers.map fun p => (p.1, mem p.2)) (devs op.key))

/-- A read from the device to memory. -/
def read (devs : Devices) (mem : Int → Byte) (op : DeviceOp) : Int → Byte :=
  writeAll (op.transfers.map fun p => (p.2, devs op.key p.1)) mem

end DeviceOp

/-- A call of `seglun_rw_op`, with the memory its buffer is in. -/
structure RwReq where
  write : Bool
  iov : List ExIovec
  buffer : Tbuf
  boff : Int
  mem : Int → Byte

namespace RwReq

/-- The requested offsets, in order. -/
def offsets (q : RwReq) : List Int := q.iov.flatMap fun v => span v.offset (v.offset + v.len)

/-- The addresses in the buffer of the requested offsets. -/
def memory (q : RwReq) : List Int :=
  ((addresses q.buffer.iov).drop q.boff.toNat).take q.offsets.length

/-- The operations of a call; `none` where it leaves its tables. -/
def ops (g : Geometry) (nShift : Nat) (rows : List SeglunRow) (q : RwReq) :
    Option (List DeviceOp) :=
  (assemble g nShift rows q.buffer q.iov q.boff).map fun st => deviceOps g st.1

/-- What a write makes of a flat file. -/
def apply (q : RwReq) (file : Int → Byte) : Int → Byte :=
  writeAll (q.offsets.zip (q.memory.map q.mem)) file

end RwReq

/-- Calls in sequence, each with its device operations in any order: every call stays in
its tables and every read returns the bytes of the file that the writes before it left. -/
def ReadsLatest (g : Geometry) (nShift : Nat) (rows : List SeglunRow) :
    (Int → Byte) → Devices → List RwReq → Prop
  | _, _, [] => True
  | file, devs, q :: qs =>
    ∃ ops, q.ops g nShift rows = some ops ∧ ∀ order : List DeviceOp, order.Perm ops →
      if q.write then
        ReadsLatest g nShift rows (q.apply file) (order.foldl (DeviceOp.write q.mem) devs) qs
      else
        q.memory.map (order.foldl (DeviceOp.read devs) q.mem) = q.offsets.map file ∧
          ReadsLatest g nShift rows file devs qs

/-- Nonempty rows, one after the other from offset 0, that cover `total` bytes. -/
structure ValidLayout (rows : List SeglunRow) (total : Int) : Prop where
  contiguous : Contiguous 0 rows
  shape : ∀ r ∈ rows, 1 ≤ r.rowLen ∧ r.segEnd = r.segOffset + r.rowLen - 1
  covers : ∀ x, 0 ≤ x → x < total → ∃ r ∈ rows, r.segOffset ≤ x ∧ x ≤ r.segEnd

/-- A call inside the segment and its buffer; a buffer that is read into has no byte
twice. -/
structure RwReq.Ok (total : Int) (q : RwReq) : Prop where
  inside : ∀ v ∈ q.iov, 0 ≤ v.offset ∧ 1 ≤ v.len ∧ v.offset + v.len ≤ total
  buffer_total : q.buffer.totalBytes = totalLen q.buffer.iov
  boff_nonneg : 0 ≤ q.boff
  room : q.boff.toNat + q.offsets.length ≤ q.buffer.totalBytes
  apart : q.write = false → (addresses q.buffer.iov).Nodup
  bytes : q.buffer.totalBytes ≤ 2147483648

/-- The stripes of the rows have numbers and shifts that fit in an `int`. -/
def ShiftsFit (g : Geometry) (nShift : Nat) (rows : List SeglunRow) : Prop :=
  ∀ r ∈ rows, (r.rowLen - 1) / g.stripeSize < 2147483648 ∧
    (r.rowLen - 1) / g.stripeSize * nShift + g.nDevices ≤ 2147483648

instance (g : Geometry) (nShift : Nat) (rows : List SeglunRow) : Decidable (ShiftsFit g nShift rows) :=
  inferInstanceAs (Decidable (∀ r ∈ rows, _ ∧ _))

/-- The rows that a vector meets. -/
def rowsHit (rows : List SeglunRow) (iov : List ExIovec) : List SeglunRow :=
  rows.filter fun r => iov.any fun v => Meets v.offset (v.offset + v.len - 1) r

/-- The tables on the stack suffice, or there is one device and they grow in time. -/
def TableFits (g : Geometry) (rows : List SeglunRow) (q : RwReq) : Prop :=
  g.nDevices = 1 ∨ (rowsHit rows q.iov).length * g.nDevices ≤ 100

/-- The byte at offset `x` of the segment. -/
def segmentByte (g : Geometry) (nShift : Nat) (rows : List SeglunRow) (devs : Devices) (x : Int) :
    Byte :=
  match rows.find? fun r => r.segOffset ≤ x ∧ x ≤ r.segEnd with
  | none => 0
  | some r => devs (r, deviceOf g nShift (x - r.segOffset)) (deviceOffset g (x - r.segOffset))

/-- A table entry that transfers `target` byte by byte. -/
structure Request (r : LunRwRow) (target : List (Int × Int)) : Prop where
  same_length : (extentBytes r.exIov).length = (addresses r.iov).length
  bytes : (extentBytes r.exIov).zip (addresses r.iov) = target
  pieces : r.exIov.length ≤ r.iov.length
  len : r.len = (r.exIov.map ExIovec.len).sum
  idle : r.exIov = [] → r.iov = []

theorem request_zero : Request LunRwRow.zero [] :=
  ⟨rfl, rfl, le_rfl, rfl, fun _ => rfl⟩

theorem Request.append {old new more} (h : Request old target) (ha : Appends old new more) :
    Request new (target ++ more) := by
  obtain ⟨exs, ps, rfl, hlen, rfl, hcase⟩ := ha.added
  refine ⟨?_, ?_, ?_, ?_, ?_⟩
  · simp [h.same_length, hlen]
  · rw [extentBytes_append, addresses_append, zip_append h.same_length, h.bytes]
  · have := h.pieces
    rcases hcase with ⟨rfl, rfl⟩ | ⟨hone, hne⟩
    · simpa using this
    · have := length_pos_of_ne_nil hne
      simp only [length_append]
      omega
  · simp [h.len]
  · intro hnil
    obtain ⟨hold, rfl⟩ := append_eq_nil_iff.mp hnil
    rcases hcase with ⟨_, rfl⟩ | ⟨hone, _⟩
    · simpa using h.idle hold
    · simp at hone

/-- The operation of an entry transfers what the entry holds: one memory piece means
one extent. -/
theorem Request.transfers {r} (h : Request r target) {row i op} (hop : deviceOp row i r = some op) :
    op.key = (row, i) ∧ op.transfers = target := by
  rw [deviceOp] at hop
  split at hop
  · simp at hop
  next e es hex =>
    cases hop
    refine ⟨rfl, ?_⟩
    rw [← h.bytes, hex]
    simp only [DeviceOp.transfers]
    split_ifs with hone
    · have hle := h.pieces
      rw [hex, hone, length_cons] at hle
      obtain rfl : es = [] := length_eq_zero_iff.mp (by omega)
      have hlen := h.len
      rw [hex] at hlen
      simp only [map_cons, map_nil, sum_cons, sum_nil, add_zero] at hlen
      rw [hlen]
    · rfl

-- An entry of length 0 leaves an extent without a memory piece. The one piece of the entry
-- behind it is then transferred at the first extent: offset 2 in place of 0.
example : ((RwReq.mk true [⟨2, 0⟩, ⟨0, 1⟩] ⟨1, [⟨0, 1⟩]⟩ 0 fun _ => 0).ops
    ⟨1, 4, 4, by decide, by decide, by decide, by decide⟩ 1 [⟨0, 3, 4, 4⟩]).map
      (List.map DeviceOp.extents) = some [[⟨2, 1⟩]] := by decide

theorem Request.no_op {r} (h : Request r target) {row i} (hop : deviceOp row i r = none) :
    target = [] := by
  rw [deviceOp] at hop
  split at hop
  next hex => rw [← h.bytes, hex, extentBytes_nil, zip_nil_left]
  · simp at hop

/-- With one device the tables have room for the next row. With more they stay on the
stack, all entries in use being there. -/
def RwTable.Sized (g : Geometry) (t : RwTable) : Prop :=
  if g.nDevices = 1 then t.slots.length < t.islSize ∧ t.entries = t.islSize
  else t.islSize = 100 ∧ t.entries = 100 ∧ t.slots.length * g.nDevices ≤ 100

variable {g : Geometry} {t : RwTable} {b : SeglunRow}

theorem sized_onStack : RwTable.onStack.Sized g := by
  rw [RwTable.Sized]
  split_ifs <;> simp [RwTable.onStack]

/-- More than one device: 50 rows at most are in use, so the tables do not grow. -/
theorem RwTable.Sized.grow_eq (h : t.Sized g) (hn : g.nDevices ≠ 1) : t.grow g = t := by
  rw [RwTable.Sized, if_neg hn] at h
  have htwo : 2 ≤ g.nDevices := by
    have := g.devices_pos
    omega
  have := Nat.mul_le_mul_left t.slots.length htwo
  exact if_neg (by omega)

theorem RwTable.Sized.grow_one (h : t.Sized g) (hn : g.nDevices = 1) :
    (t.grow g).slots = t.slots ∧ (t.grow g).slots.length + 1 < (t.grow g).islSize ∧
      (t.grow g).entries = (t.grow g).islSize := by
  rw [RwTable.Sized, if_pos hn] at h
  rw [RwTable.grow]
  split_ifs with hfull
  · refine ⟨rfl, ?_, ?_⟩
    · change t.slots.length + 1 < 3 * t.islSize / 2 + 10
      omega
    · change g.nDevices * (3 * t.islSize / 2 + 10) = 3 * t.islSize / 2 + 10
      rw [hn, Nat.one_mul]
  · exact ⟨rfl, by omega, h.2⟩

/-- A new row gets a cleared slot as long as the entries fit. -/
theorem RwTable.Sized.useRow (h : t.Sized g) (hb : b ∉ t.rows)
    (hfit : g.nDevices = 1 ∨ (t.slots.length + 1) * g.nDevices ≤ 100) :
    ∃ t', t.useRow g b = some t' ∧ t'.slots = t.slots ++ [⟨b, fun _ => LunRwRow.zero⟩] ∧
      t'.Sized g := by
  by_cases hn : g.nDevices = 1
  · obtain ⟨hslots, hroom, hentries⟩ := h.grow_one hn
    refine ⟨{ t.grow g with slots := (t.grow g).slots ++ [⟨b, fun _ => LunRwRow.zero⟩] }, ?_, ?_, ?_⟩
    · rw [RwTable.useRow, if_neg hb]
      exact if_neg (by rw [hn]; omega)
    · rw [hslots]
    · rw [RwTable.Sized, if_pos hn]
      refine ⟨?_, hentries⟩
      rw [length_append, length_singleton]
      exact hroom
  · have hgrow := h.grow_eq hn
    have hfit' := hfit.resolve_left hn
    rw [RwTable.Sized, if_neg hn] at h
    refine ⟨{ t with slots := t.slots ++ [⟨b, fun _ => LunRwRow.zero⟩] }, ?_, rfl, ?_⟩
    · rw [RwTable.useRow, if_neg hb, hgrow]
      exact if_neg (by omega)
    · rw [RwTable.Sized, if_neg hn]
      refine ⟨h.1, h.2.1, ?_⟩
      rw [length_append, length_singleton]
      exact hfit'

/-- A new row whose entries lie behind the table. -/
theorem RwTable.Sized.useRow_none (h : t.Sized g) (hb : b ∉ t.rows)
    (hfit : ¬(g.nDevices = 1 ∨ (t.slots.length + 1) * g.nDevices ≤ 100)) : t.useRow g b = none := by
  obtain ⟨hn, hover⟩ := not_or.mp hfit
  rw [RwTable.useRow, if_neg hb, h.grow_eq hn]
  rw [RwTable.Sized, if_neg hn] at h
  exact if_pos (by omega)

theorem RwTable.useRow_mem (hb : b ∈ t.rows) : t.useRow g b = some t := if_pos hb

end LStore.Lun
