import LStore.Lun.FlatArray
import Mathlib.Data.Finset.Card

/-!
# The tables of a LUN request

`seglun_rw_op` keeps two tables: `bused`, with an entry for each row in use, and
`rwb_table`, with an entry for each device of each row. Both start on the stack with
100 entries and are grown on one test, that of the number of rows.

## Implementation notes

The state keeps every access of a table with the capacity the table had. Accesses
behind the end are recorded and otherwise go through. The entries that a `malloc` or
`realloc` adds are the arguments `fresh`.
-/

namespace LStore.Lun

open LStore.Toolbox List Function

/-- A table: its number of entries and what they hold. -/
structure IoTable (α : Type*) where
  capacity : Nat
  entry : Nat → α

/-- Move a table to `capacity` entries, of which the first `copied` are taken over. -/
def IoTable.enlarge {α : Type*} (t : IoTable α) (capacity copied : Nat) (fresh : Nat → α) :
    IoTable α :=
  ⟨capacity, fun k => if k < copied then t.entry k else fresh k⟩

/-- The entries of a table are those of an older one. -/
def IoTable.Keeps {α : Type*} (new old : IoTable α) : Prop :=
  old.capacity ≤ new.capacity ∧ ∀ k < old.capacity, new.entry k = old.entry k

/-- An access of a table: the index and the capacity at that time. -/
structure Access where
  index : Nat
  capacity : Nat
deriving DecidableEq, Repr

/-- The variables of `seglun_rw_op` and the `rwop_index` of the rows. -/
structure RwTables where
  onStack : Bool
  islSize : Nat
  nBslots : Nat
  bused : IoTable SeglunRow
  rwbTable : IoTable LunRwRow
  rwopIndex : SeglunRow → Option Nat
  bpos : Int
  accesses : List Access

variable (g : Geometry) (nShift : Nat) (buffer : Tbuf) (freshRow : Nat → SeglunRow)
  (freshRw : Nat → LunRwRow)

/-- The tables on the stack, no row being in use. -/
def RwTables.start (boff : Int) : RwTables where
  onStack := true
  islSize := 100
  nBslots := 0
  bused := ⟨100, freshRow⟩
  rwbTable := ⟨100, freshRw⟩
  rwopIndex := fun _ => none
  bpos := boff
  accesses := []

/-- The accesses of the entries of the row with index `j`. -/
def rowAccesses (s : RwTables) (j : Nat) : List Access :=
  (List.range g.nDevices).map fun i => ⟨j * g.nDevices + i, s.rwbTable.capacity⟩

/-- `bused[n_bslots] = b` and what goes with it. -/
def RwTables.addRow (s : RwTables) (b : SeglunRow) : RwTables :=
  { s with
    bused := { s.bused with entry := Function.update s.bused.entry s.nBslots b }
    rwopIndex := Function.update s.rwopIndex b (some s.nBslots)
    nBslots := s.nBslots + 1
    accesses := s.accesses ++ [⟨s.nBslots, s.bused.capacity⟩] }

/-- The entries that are taken over: those of a table on the stack by `memcpy`, those of
one with `capacity` entries on the heap by `realloc`. -/
def RwTables.copied (s : RwTables) (capacity : Nat) : Nat := if s.onStack then 100 else capacity

/-- "Need to grow the tables". -/
def RwTables.growTables (s : RwTables) : RwTables :=
  if s.islSize ≤ s.nBslots then
    let islSize := 3 * s.islSize / 2 + 10
    { s with
      islSize := islSize
      rwbTable := s.rwbTable.enlarge (g.nDevices * islSize) (s.copied s.rwbTable.capacity) freshRw
      bused := s.bused.enlarge islSize (s.copied s.bused.capacity) freshRow
      onStack := false }
  else s

/-- The `memset` of the entries of a row. -/
def RwTables.clearRow (s : RwTables) (j : Nat) : RwTables :=
  { s with
    rwbTable := { s.rwbTable with
      entry := fun k => if j * g.nDevices ≤ k ∧ k < (j + 1) * g.nDevices then LunRwRow.zero
        else s.rwbTable.entry k }
    accesses := s.accesses ++ rowAccesses g s j }

/-- A row that is met for the first time. -/
def RwTables.newRow (s : RwTables) (b : SeglunRow) : RwTables :=
  ((s.addRow b).growTables g freshRow freshRw).clearRow g s.nBslots

/-- `lun_row_decompose` into the entries of row `j`. -/
def RwTables.decomposeRow (s : RwTables) (j : Nat) (start blen : Int) : RwTables :=
  let rwBuf := lunRowDecompose g nShift buffer
    (fun i => s.rwbTable.entry (j * g.nDevices + i)) start s.bpos blen
  { s with
    rwbTable := { s.rwbTable with
      entry := fun k => if j * g.nDevices ≤ k ∧ k < (j + 1) * g.nDevices
        then rwBuf (k - j * g.nDevices) else s.rwbTable.entry k }
    bpos := s.bpos + blen
    accesses := s.accesses ++ rowAccesses g s j }

/-- One row of one entry of the request. -/
def RwTables.visit (s : RwTables) (p : ExIovec × SeglunRow) : RwTables :=
  let lo := p.1.offset
  let hi := lo + p.1.len - 1
  let start := if lo ≤ p.2.segOffset then 0 else lo - p.2.segOffset
  let last := if p.2.segEnd ≤ hi then p.2.rowLen - 1 else hi - p.2.segOffset
  match s.rwopIndex p.2 with
  | none => (s.newRow g freshRow freshRw p.2).decomposeRow g nShift buffer s.nBslots start
      (last - start + 1)
  | some j => s.decomposeRow g nShift buffer j start (last - start + 1)

/-- The loops over the entries of the request and the rows they meet. -/
def RwTables.visitAll (visits : List (ExIovec × SeglunRow)) (boff : Int) : RwTables :=
  visits.foldl (RwTables.visit g nShift buffer freshRow freshRw)
    (RwTables.start freshRow freshRw boff)

/-- "Assemble the sub tasks": the loop over the rows in use. -/
def RwTables.assembleAccesses (s : RwTables) : List Access :=
  (List.range s.nBslots).flatMap fun slot => ⟨slot, s.bused.capacity⟩ :: rowAccesses g s slot

/-- All accesses of a request lie in the tables, and when the tables are grown for a new
row they keep their entries. -/
structure TablesOk (g : Geometry) (nShift : Nat) (buffer : Tbuf) (rows : List SeglunRow)
    (iov : List ExIovec) (boff : Int) (freshRow : Nat → SeglunRow) (freshRw : Nat → LunRwRow) :
    Prop where
  inside : ∀ s, s = RwTables.visitAll g nShift buffer freshRow freshRw (parts rows iov) boff →
    ∀ a ∈ s.accesses ++ s.assembleAccesses g, a.index < a.capacity
  kept : ∀ pre p post, parts rows iov = pre ++ p :: post →
    ∀ s, s = RwTables.visitAll g nShift buffer freshRow freshRw pre boff → s.rwopIndex p.2 = none →
      ((s.addRow p.2).growTables g freshRow freshRw).bused.Keeps (s.addRow p.2).bused ∧
        ((s.addRow p.2).growTables g freshRow freshRw).rwbTable.Keeps s.rwbTable

/-- The rows that a request meets, each once. -/
def distinctRows (rows : List SeglunRow) (iov : List ExIovec) : Finset SeglunRow :=
  ((parts rows iov).map Prod.snd).toFinset

variable {g : Geometry} {nShift : Nat} {buffer : Tbuf} {freshRow : Nat → SeglunRow}
  {freshRw : Nat → LunRwRow} {seen : Finset SeglunRow} {s : RwTables}

/-- `k` rows have their entries on the stack, or there is one device. -/
def RowsFit (g : Geometry) (k : Nat) : Prop := g.nDevices = 1 ∨ k * g.nDevices ≤ 100

/-- The tables when the rows in `seen` are in use. -/
structure TablesInv (g : Geometry) (seen : Finset SeglunRow) (s : RwTables) : Prop where
  slots : s.nBslots = seen.card
  used : ∀ b, (s.rwopIndex b).isSome ↔ b ∈ seen
  below : ∀ b j, s.rwopIndex b = some j → j < s.nBslots
  room : s.nBslots < s.islSize
  bused : s.bused.capacity = s.islSize
  stack : s.onStack = true → s.islSize = 100 ∧ s.rwbTable.capacity = 100
  heap : s.onStack = false → 100 ≤ s.nBslots ∧ s.rwbTable.capacity = g.nDevices * s.islSize

/-- The entries of one row lie in the table when the last of them does. -/
theorem rowAccesses_inside (s : RwTables) (j : Nat) :
    (∀ a ∈ rowAccesses g s j, a.index < a.capacity) ↔
      (j + 1) * g.nDevices ≤ s.rwbTable.capacity := by
  have hn := g.devices_pos
  simp only [rowAccesses, forall_mem_map, mem_range, add_mul, one_mul]
  constructor
  · intro h
    have := h (g.nDevices - 1) (by omega)
    omega
  · intro h i hi
    omega

section

variable (h : TablesInv g seen s)
include h

/-- Rows that fit have their entries in the table. -/
theorem TablesInv.row_inside (hfit : RowsFit g s.nBslots) {j} (hj : j < s.nBslots) :
    (j + 1) * g.nDevices ≤ s.rwbTable.capacity := by
  have hle : (j + 1) * g.nDevices ≤ s.nBslots * g.nDevices := Nat.mul_le_mul_right _ hj
  have hroom := h.room
  cases hstack : s.onStack with
  | true =>
    obtain ⟨hisl, hcap⟩ := h.stack hstack
    rcases hfit with hn | hfit
    · rw [hn] at hle ⊢
      omega
    · omega
  | false =>
    rw [(h.heap hstack).2, Nat.mul_comm g.nDevices]
    exact hle.trans (Nat.mul_le_mul_right _ (Nat.le_of_lt hroom))

theorem TablesInv.rwb_le : s.rwbTable.capacity ≤ g.nDevices * s.islSize := by
  cases hstack : s.onStack with
  | true =>
    obtain ⟨hisl, hcap⟩ := h.stack hstack
    rw [hcap, hisl]
    exact Nat.le_mul_of_pos_left _ g.devices_pos
  | false => exact (h.heap hstack).2.le

/-- Either way every entry is taken over. -/
theorem TablesInv.copied_eq :
    s.copied s.rwbTable.capacity = s.rwbTable.capacity ∧
      s.copied s.bused.capacity = s.bused.capacity := by
  unfold RwTables.copied
  cases hstack : s.onStack with
  | true =>
    have hbused := h.bused
    obtain ⟨hisl, hcap⟩ := h.stack hstack
    simp only [if_true]
    omega
  | false => simp

/-- Growing keeps the entries. -/
theorem TablesInv.grow_keeps (b : SeglunRow) :
    ((s.addRow b).growTables g freshRow freshRw).bused.Keeps (s.addRow b).bused ∧
      ((s.addRow b).growTables g freshRow freshRw).rwbTable.Keeps s.rwbTable := by
  have hbused := h.bused
  obtain ⟨hrw, hrow⟩ := h.copied_eq
  unfold RwTables.growTables
  split_ifs with hgrow
  · refine ⟨⟨?_, fun k hk => if_pos ?_⟩, ?_, fun k hk => if_pos ?_⟩
    · change s.bused.capacity ≤ 3 * s.islSize / 2 + 10
      omega
    · exact hk.trans_eq hrow.symm
    · exact h.rwb_le.trans (Nat.mul_le_mul_left _
        (show s.islSize ≤ 3 * s.islSize / 2 + 10 by omega))
    · exact hk.trans_eq hrw.symm
  · exact ⟨⟨le_rfl, fun _ _ => rfl⟩, le_rfl, fun _ _ => rfl⟩

/-- The tables with a new row, before its entries are cleared. -/
theorem TablesInv.addRow {b} (hb : b ∉ seen) :
    TablesInv g (insert b seen) ((s.addRow b).growTables g freshRow freshRw) := by
  have hroom := h.room
  have hslots : s.nBslots + 1 = (insert b seen).card := by
    rw [Finset.card_insert_of_notMem hb, h.slots]
  have hused (c : SeglunRow) : ((update s.rwopIndex b (some s.nBslots)) c).isSome ↔
      c ∈ insert b seen := by
    rw [Finset.mem_insert, ← h.used c]
    by_cases hc : c = b
    · simp [hc]
    · simp [hc]
  have hbelow (c : SeglunRow) (j : Nat)
      (hj : update s.rwopIndex b (some s.nBslots) c = some j) : j < s.nBslots + 1 := by
    by_cases hc : c = b
    · subst hc
      rw [update_self, Option.some.injEq] at hj
      omega
    · rw [update_of_ne hc] at hj
      have := h.below c j hj
      omega
  unfold RwTables.growTables
  split_ifs with hgrow
  · have hfull : s.islSize ≤ s.nBslots + 1 := hgrow
    refine ⟨hslots, hused, hbelow, ?_, rfl, (fun hs => nomatch hs), fun _ => ⟨?_, rfl⟩⟩
    · change s.nBslots + 1 < 3 * s.islSize / 2 + 10
      omega
    · change 100 ≤ s.nBslots + 1
      cases hstack : s.onStack with
      | true =>
        have := (h.stack hstack).1
        omega
      | false =>
        have := (h.heap hstack).1
        omega
  · have hnot : ¬s.islSize ≤ s.nBslots + 1 := hgrow
    refine ⟨hslots, hused, hbelow, by change s.nBslots + 1 < s.islSize; omega, h.bused, h.stack, ?_⟩
    intro hs
    obtain ⟨hle, hcap⟩ := h.heap hs
    exact ⟨Nat.le_succ_of_le hle, hcap⟩

/-- With `k` rows that fit and one more, the table has room for that one exactly when
they fit, too: with several devices it is still on the stack. -/
theorem TablesInv.last_inside_iff {k} (hk : s.nBslots = k + 1) (hfit : RowsFit g k) :
    (k + 1) * g.nDevices ≤ s.rwbTable.capacity ↔ RowsFit g (k + 1) := by
  refine ⟨fun hcap => ?_, fun hfit' => h.row_inside (hk ▸ hfit') (by omega)⟩
  by_cases hn : g.nDevices = 1
  · exact .inl hn
  · right
    have htwo : 2 ≤ g.nDevices := by
      have := g.devices_pos
      omega
    have hle := (Nat.mul_le_mul_left k htwo).trans (hfit.resolve_left hn)
    cases hstack : s.onStack with
    | true => exact hcap.trans (h.stack hstack).2.le
    | false =>
      have := (h.heap hstack).1
      omega

end

theorem RowsFit.of_succ {k} (h : RowsFit g (k + 1)) : RowsFit g k :=
  h.imp_right fun hle => (Nat.mul_le_mul_right _ (Nat.le_succ k)).trans hle

/-- What a visit does: the invariant moves on, as a decomposition and a clearing touch only
entries, and the accesses stay inside as long as the rows fit. -/
theorem TablesInv.visit (h : TablesInv g seen s) (p : ExIovec × SeglunRow)
    (hin : (∀ a ∈ s.accesses, a.index < a.capacity) ↔ RowsFit g s.nBslots) :
    TablesInv g (insert p.2 seen) (s.visit g nShift buffer freshRow freshRw p) ∧
      ((∀ a ∈ (s.visit g nShift buffer freshRow freshRw p).accesses, a.index < a.capacity) ↔
        RowsFit g (s.visit g nShift buffer freshRow freshRw p).nBslots) := by
  unfold RwTables.visit
  cases hindex : s.rwopIndex p.2 with
  | some j =>
    have hseen : p.2 ∈ seen := (h.used p.2).mp (by simp [hindex])
    refine ⟨(Finset.insert_eq_of_mem hseen).symm ▸ { h with }, ?_⟩
    simp only [RwTables.decomposeRow, forall_mem_append, rowAccesses_inside, hin]
    exact ⟨And.left, fun hfit => ⟨hfit, h.row_inside hfit (h.below p.2 j hindex)⟩⟩
  | none =>
    have hnew : p.2 ∉ seen := fun hmem => by
      have := (h.used p.2).mpr hmem
      simp [hindex] at this
    have hadd : TablesInv g (insert p.2 seen) ((s.addRow p.2).growTables g freshRow freshRw) :=
      h.addRow hnew
    have hslots : ((s.addRow p.2).growTables g freshRow freshRw).nBslots = s.nBslots + 1 := by
      rw [hadd.slots, h.slots, Finset.card_insert_of_notMem hnew]
    have haccesses : ((s.addRow p.2).growTables g freshRow freshRw).accesses =
        s.accesses ++ [⟨s.nBslots, s.bused.capacity⟩] := by
      unfold RwTables.growTables
      split_ifs <;> rfl
    refine ⟨{ hadd with }, ?_⟩
    have hbused : s.nBslots < s.bused.capacity := h.bused ▸ h.room
    simp only [RwTables.decomposeRow, RwTables.newRow, RwTables.clearRow, forall_mem_append,
      rowAccesses_inside, haccesses, forall_mem_singleton, hin, hslots, hbused, and_true,
      and_assoc, and_self]
    constructor
    · rintro ⟨hfit, hcap⟩
      exact (hadd.last_inside_iff hslots hfit).mp hcap
    · exact fun hfit => ⟨hfit.of_succ, (hadd.last_inside_iff hslots hfit.of_succ).mpr hfit⟩

/-- After any visits: the induction is on the visits, from the end. -/
theorem tablesInv_visitAll (g : Geometry) (nShift : Nat) (buffer : Tbuf)
    (freshRow : Nat → SeglunRow) (freshRw : Nat → LunRwRow) (visits : List (ExIovec × SeglunRow))
    (boff : Int) :
    TablesInv g (visits.map Prod.snd).toFinset
        (RwTables.visitAll g nShift buffer freshRow freshRw visits boff) ∧
      ((∀ a ∈ (RwTables.visitAll g nShift buffer freshRow freshRw visits boff).accesses,
          a.index < a.capacity) ↔
        RowsFit g (RwTables.visitAll g nShift buffer freshRow freshRw visits boff).nBslots) := by
  induction visits using List.reverseRecOn with
  | nil =>
    refine ⟨⟨rfl, by simp [RwTables.visitAll, RwTables.start], by
      simp [RwTables.visitAll, RwTables.start], Nat.zero_lt_succ 99, rfl, fun _ => ⟨rfl, rfl⟩,
      (fun hs => nomatch hs)⟩, ?_⟩
    simp [RwTables.visitAll, RwTables.start, RowsFit]
  | append_singleton pre p ih =>
    have hrun : RwTables.visitAll g nShift buffer freshRow freshRw (pre ++ [p]) boff =
        (RwTables.visitAll g nShift buffer freshRow freshRw pre boff).visit g nShift buffer
          freshRow freshRw p := by
      simp [RwTables.visitAll]
    have hseen : ((pre ++ [p]).map Prod.snd).toFinset =
        insert p.2 (pre.map Prod.snd).toFinset := by
      ext b
      simp
    rw [hrun, hseen]
    exact ih.1.visit p ih.2

/-- The tables hold exactly when there is one device, or the devices of all rows that the
request meets have entries on the stack. -/
theorem tablesOk_iff (g : Geometry) (nShift : Nat) (buffer : Tbuf) (rows : List SeglunRow)
    (iov : List ExIovec) (boff : Int) (freshRow : Nat → SeglunRow) (freshRw : Nat → LunRwRow) :
    TablesOk g nShift buffer rows iov boff freshRow freshRw ↔
      g.nDevices = 1 ∨ (distinctRows rows iov).card * g.nDevices ≤ 100 := by
  obtain ⟨hinv, hin⟩ := tablesInv_visitAll g nShift buffer freshRow freshRw (parts rows iov) boff
  rw [hinv.slots] at hin
  constructor
  · intro h
    exact hin.mp fun a ha => h.inside _ rfl a (mem_append_left _ ha)
  · intro hfit
    refine ⟨?_, ?_⟩
    · rintro s rfl
      refine forall_mem_append.mpr ⟨hin.mpr hfit, fun a ha => ?_⟩
      obtain ⟨slot, hslot, ha⟩ := mem_flatMap.mp ha
      have hlt := mem_range.mp hslot
      rcases mem_cons.mp ha with rfl | ha
      · have := hinv.room
        rw [hinv.bused]
        exact hlt.trans this
      · exact (rowAccesses_inside _ slot).mpr
          (hinv.row_inside (hinv.slots.symm ▸ hfit) hlt) a ha
    · rintro pre p post _ s rfl _
      exact (tablesInv_visitAll g nShift buffer freshRow freshRw pre boff).1.grow_keeps p.2

/-- One row of 101 devices: the last entry lies behind the table. -/
theorem table_overrun :
    (⟨100, 100⟩ : Access) ∈ (RwTables.visitAll
      ⟨101, 1, 1, by decide, by decide, by decide, by decide⟩ 1 ⟨101, [⟨0, 101⟩]⟩
      (fun _ => ⟨0, 0, 0, 0⟩) (fun _ => LunRwRow.zero)
      (parts [⟨0, 100, 1, 101⟩] [⟨0, 101⟩]) 0).accesses := by
  decide

end LStore.Lun
