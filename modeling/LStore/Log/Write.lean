import LStore.Log.Segment

/-!
# Writes as updates of a flat file

What a log segment shows at an offset is the data byte the mapping points to, or
the base byte when the offset is not logged. The table records of a write
override the offset map one after another, and the write changes the view
exactly as it would change a flat file: its entries are laid down in order.
-/

namespace LStore.Log

open IntervalList ByteCopy

variable {iov : List ExIovec} {s : Seglog} {f : Int → Option Int}

/-- A table record laid over an offset map. -/
def place (f : Int → Option Int) (r : SlogRange) : Int → Option Int :=
  fun o => if r.lo ≤ o ∧ o < r.lo + r.hi then some (r.dataOffset + (o - r.lo)) else f o

/-- The file size after a table record. -/
def extend (size : Int) (r : SlogRange) : Int := max size (r.lo + r.hi)

/-- A table record of a write: it starts at a real offset and is not empty. -/
def IsWrite (r : SlogRange) : Prop := 0 ≤ r.lo ∧ 1 ≤ r.hi

/-- The bytes an offset map shows. -/
def viewOf (data base : Int → Byte) (f : Int → Option Int) (o : Int) : Byte :=
  match f o with
  | some d => data d
  | none => base o

/-- The byte a log segment shows at an offset. -/
def view (s : Seglog) (o : Int) : Byte := viewOf s.dataSeg.bytes s.baseSeg.bytes (lookup s.mapping) o

/-- Lay the entries of a vector down on a flat file, from buffer position `bpos`. -/
def overlay (buffer : Int → Byte) : Int → List ExIovec → (Int → Byte) → (Int → Byte)
  | _, [], file => file
  | bpos, v :: rest, file =>
    overlay buffer (bpos + v.len) rest (copyBytes buffer bpos file v.offset v.len)

/-- Some entry of the vector covers the offset. -/
def Covers (iov : List ExIovec) (o : Int) : Prop :=
  ∃ v ∈ iov, v.offset ≤ o ∧ o < v.offset + v.len

instance (iov : List ExIovec) (o : Int) : Decidable (Covers iov o) :=
  inferInstanceAs (Decidable (∃ v ∈ iov, _))

@[simp] theorem nbytes_nil : nbytes [] = 0 := rfl

@[simp] theorem nbytes_cons (v : ExIovec) (iov : List ExIovec) :
    nbytes (v :: iov) = v.len + nbytes iov := by
  simp [nbytes]

theorem covers_cons {v o} :
    Covers (v :: iov) o ↔ (v.offset ≤ o ∧ o < v.offset + v.len) ∨ Covers iov o := by
  simp [Covers]

theorem isWrite_writeRecords {d} (h : ∀ v ∈ iov, 1 ≤ v.len) :
    ∀ r ∈ writeRecords d iov, IsWrite r := by
  induction iov generalizing d with
  | nil => simp [writeRecords]
  | cons v iov ih =>
    intro r hr
    rcases List.mem_cons.mp hr with rfl | hr
    · have := h v (by simp)
      exact ⟨by dsimp only; omega, by dsimp only; omega⟩
    · exact ih (fun w hw => h w (by simp [hw])) r hr

/-- The records of a write map an offset into the data they reserved, or leave
it as it was. -/
theorem foldl_place_writeRecords {d o e} (h : (writeRecords d iov).foldl place f o = some e) :
    (Covers iov o ∧ d ≤ e ∧ e < d + nbytes iov) ∨ (¬Covers iov o ∧ f o = some e) := by
  induction iov generalizing d f with
  | nil => exact .inr ⟨by simp [Covers], h⟩
  | cons v iov ih =>
    rw [covers_cons, nbytes_cons]
    rcases ih h with ⟨hcov, hle, hlt⟩ | ⟨hcov, hf⟩
    · exact .inl ⟨.inr hcov, by omega, by omega⟩
    · simp only [place] at hf
      split_ifs at hf with hin
      · cases hf
        exact .inl ⟨.inl hin, by omega, by omega⟩
      · exact .inr ⟨by tauto, hf⟩

theorem foldl_place_eq_none {d o} :
    (writeRecords d iov).foldl place f o = none ↔ ¬Covers iov o ∧ f o = none := by
  induction iov generalizing d f with
  | nil => simp [writeRecords, Covers]
  | cons v iov ih =>
    rw [writeRecords, List.foldl_cons, ih, covers_cons]
    simp only [place]
    split_ifs with hin <;> simp [hin]

/-- With the written bytes stored at `d`, the records of a write lay its entries
down on the view. The induction follows the records; each one overrides the
view on its own range with the bytes stored for it. -/
theorem viewOf_writeRecords {d bpos data base buffer}
    (hdata : ∀ k : Int, 0 ≤ k → k < nbytes iov → data (d + k) = buffer (bpos + k)) :
    viewOf data base ((writeRecords d iov).foldl place f) =
      overlay buffer bpos iov (viewOf data base f) := by
  induction iov generalizing d bpos f with
  | nil => rfl
  | cons v iov ih =>
    have hhead : viewOf data base (place f { lo := v.offset, hi := v.len, dataOffset := d }) =
        copyBytes buffer bpos (viewOf data base f) v.offset v.len := by
      funext o
      simp only [viewOf, place]
      by_cases ho : (v.offset : Int) ≤ o ∧ o < v.offset + v.len
      · rw [copyBytes_inside ho, if_pos ho]
        exact hdata (o - v.offset) (by omega) (by rw [nbytes_cons]; push_cast; omega)
      · rw [copyBytes_outside ho, if_neg ho, viewOf]
    rw [writeRecords, List.foldl_cons, ih, hhead]
    · rfl
    · intro k hk hlt
      have := hdata (v.len + k) (by omega) (by rw [nbytes_cons]; push_cast; omega)
      rwa [← Int.add_assoc, ← Int.add_assoc] at this

/-- A write request: a vector of nonempty entries and a buffer offset. -/
structure WriteReq where
  iov : List ExIovec
  boff : Int
  nonempty : ∀ v ∈ iov, 1 ≤ v.len

/-- Ordered ranges whose data lies below the reserved end of the data segment. -/
structure LogInv (s : Seglog) : Prop where
  ordered : Ordered s.mapping
  below : ∀ o d, lookup s.mapping o = some d → d < s.dataSize

theorem slogMake_inv (data base : Child) : LogInv (slogMake data base) where
  ordered := ordered_nil
  below := by simp [slogMake, lookup]

/-- Inserting the range of a write record lays the record over the offset map
and touches no child. -/
theorem slogInsertRange_spec (hs : Ordered s.mapping) {r} (hr : IsWrite r) :
    ∃ m, slogInsertRange s (recordRange r) = some
        { s with mapping := m, fileSize := extend s.fileSize r } ∧
      Ordered m ∧ lookup m = place (lookup s.mapping) r := by
  obtain ⟨hlo, hlen⟩ := hr
  obtain ⟨m, hrun, hord, hlook⟩ :=
    insertMapping_spec (r := recordRange r) (by simp only [recordRange]; omega) hs
  refine ⟨m, ?_, hord, ?_⟩
  · have hsize : (if s.fileSize ≤ (recordRange r).hi then (recordRange r).hi + 1
        else s.fileSize) = extend s.fileSize r := by
      simp only [recordRange, extend]
      split_ifs <;> omega
    have hne : (recordRange r).lo ≠ -1 := by
      simp only [recordRange]
      omega
    simp [slogInsertRange, hne, hrun, hsize]
  · funext o
    rw [hlook, place]
    simp only [recordRange]
    congr 1
    rw [eq_iff_iff]
    omega

theorem completeWrite_cons (s : Seglog) (r : SlogRange) (rest : List SlogRange) :
    completeWrite s (r :: rest) =
      (slogInsertRange s (recordRange r)).bind fun s => completeWrite s rest := rfl

/-- Completing a write lays its records over the offset map, in order. -/
theorem completeWrite_spec {records} (hs : Ordered s.mapping) (hrec : ∀ r ∈ records, IsWrite r) :
    ∃ m, completeWrite s records = some
        { s with mapping := m, fileSize := records.foldl extend s.fileSize } ∧
      Ordered m ∧ lookup m = records.foldl place (lookup s.mapping) := by
  induction records generalizing s with
  | nil => exact ⟨s.mapping, rfl, hs, rfl⟩
  | cons r rest ih =>
    obtain ⟨m₁, hrun, hord, hlook⟩ := slogInsertRange_spec hs (hrec r (by simp))
    obtain ⟨m, hrest, hord', hlook'⟩ :=
      ih (s := { s with mapping := m₁, fileSize := extend s.fileSize r }) hord
        (fun x hx => hrec x (by simp [hx]))
    refine ⟨m, ?_, hord', ?_⟩
    · rw [completeWrite_cons, hrun, Option.bind_some, hrest]
      rfl
    · rw [hlook', List.foldl_cons, hlook]

/-- A write appends its records to the table and its data to the data segment,
and lays the records over the offset map. -/
theorem seglogWriteFunc_spec (hs : Ordered s.mapping) (w : WriteReq) (buffer : Int → Byte) :
    ∃ m, seglogWriteFunc s w.iov buffer w.boff = some
        { s with
          mapping := m
          fileSize := (writeRecords s.dataSize w.iov).foldl extend s.fileSize
          logSize := s.logSize + w.iov.length * sizeofSlogRange
          dataSize := s.dataSize + nbytes w.iov
          tableSeg := writeTable s.tableSeg s.logSize (writeRecords s.dataSize w.iov)
          dataSeg := s.dataSeg.write s.dataSize (nbytes w.iov) buffer w.boff } ∧
      Ordered m ∧ lookup m = (writeRecords s.dataSize w.iov).foldl place (lookup s.mapping) :=
  completeWrite_spec
    (s := storeWrite (reserveWrite s w.iov) s.logSize s.dataSize w.iov buffer w.boff) hs
    (isWrite_writeRecords w.nonempty)

/-- A write keeps the invariant, logs what it covers and lays its entries down on
the view. -/
theorem seglogWriteFunc_view (hs : LogInv s) (w : WriteReq) (buffer : Int → Byte) :
    ∃ s', seglogWriteFunc s w.iov buffer w.boff = some s' ∧ LogInv s' ∧
      (∀ o, lookup s'.mapping o = none ↔ ¬Covers w.iov o ∧ lookup s.mapping o = none) ∧
      view s' = overlay buffer w.boff w.iov (view s) := by
  obtain ⟨m, hrun, hord, hlook⟩ := seglogWriteFunc_spec hs.ordered w buffer
  refine ⟨_, hrun, ⟨hord, ?_⟩, ?_, ?_⟩
  · intro o e he
    dsimp only at he ⊢
    rw [hlook] at he
    rcases foldl_place_writeRecords he with ⟨_, _, hlt⟩ | ⟨_, hold⟩
    · exact hlt
    · have := hs.below o e hold
      omega
  · intro o
    rw [hlook, foldl_place_eq_none]
  · -- storing the data behind the reserved end does not show through the old map
    have hold : viewOf (s.dataSeg.write s.dataSize (nbytes w.iov) buffer w.boff).bytes
        s.baseSeg.bytes (lookup s.mapping) = view s := by
      funext o
      simp only [view, viewOf, Child.write]
      cases hl : lookup s.mapping o with
      | none => rfl
      | some d =>
        have := hs.below o d hl
        exact copyBytes_outside (by omega)
    rw [← hold, ← viewOf_writeRecords (d := s.dataSize)]
    · funext o
      simp [view, hlook]
    · intro k hk hlt
      simp only [Child.write]
      rw [copyBytes_inside (by omega)]
      congr 1
      omega

/-- Run write requests one after another, each with its own buffer. -/
def runWrites (s : Seglog) (ws : List (WriteReq × (Int → Byte))) : Option Seglog :=
  ws.foldlM (fun s w => seglogWriteFunc s w.1.iov w.2 w.1.boff) s

/-- The flat file after the requests: at each offset the byte of the latest
write covering it, or the byte it had before. -/
def latest (file : Int → Byte) (ws : List (WriteReq × (Int → Byte))) : Int → Byte :=
  ws.foldl (fun file w => overlay w.2 w.1.boff w.1.iov file) file

/-- Some request of the list covers the offset. -/
def Logged (g : List WriteReq) (o : Int) : Prop := ∃ w ∈ g, Covers w.iov o

instance (g : List WriteReq) (o : Int) : Decidable (Logged g o) :=
  inferInstanceAs (Decidable (∃ w ∈ g, _))

theorem logged_cons {w g o} : Logged (w :: g) o ↔ Covers w.iov o ∨ Logged g o := by
  simp [Logged]

/-- After any run of writes the log segment shows the flat file. -/
theorem runWrites_spec (hs : LogInv s) (ws : List (WriteReq × (Int → Byte))) :
    ∃ s', runWrites s ws = some s' ∧ LogInv s' ∧
      (∀ o, lookup s'.mapping o = none ↔ ¬Logged (ws.map Prod.fst) o ∧ lookup s.mapping o = none) ∧
      view s' = latest (view s) ws := by
  induction ws generalizing s with
  | nil => exact ⟨s, rfl, hs, by simp [Logged], rfl⟩
  | cons w ws ih =>
    obtain ⟨s₁, hrun, hinv, hlook, hview⟩ := seglogWriteFunc_view hs w.1 w.2
    obtain ⟨s', hrest, hinv', hlook', hview'⟩ := ih hinv
    refine ⟨s', ?_, hinv', ?_, ?_⟩
    · simp only [runWrites, List.foldlM_cons, hrun] at hrest ⊢
      exact hrest
    · intro o
      rw [hlook', hlook, List.map_cons, logged_cons]
      tauto
    · rw [hview', hview]
      rfl

/-- A run of writes on a new log maps exactly what was written and shows the
latest bytes. -/
theorem runWrites_slogMake (data base : Child) (ws : List (WriteReq × (Int → Byte))) :
    ∃ s, runWrites (slogMake data base) ws = some s ∧ LogInv s ∧
      (fun o => lookup s.mapping o ≠ none) = Logged (ws.map Prod.fst) ∧
      view s = latest base.bytes ws := by
  obtain ⟨s, hrun, hinv, hlook, hview⟩ := runWrites_spec (slogMake_inv data base) ws
  refine ⟨s, hrun, hinv, ?_, hview⟩
  funext o
  rw [eq_iff_iff, ne_eq, hlook]
  simp [slogMake, lookup]

end LStore.Log
