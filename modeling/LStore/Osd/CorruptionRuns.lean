import LStore.Osd.CacheTrace
import LStore.Osd.FlatRuns

/-!
# Corrupted blocks are noticed

In every run of alterations, reads and writes that stays clear of the slips of the code, an
altered block is corrupt, an entry of the cache belongs to a block that was checked, and so every
call is honest.
-/

namespace LStore.Osd

open Splice Option Watched
open List
open Base.Reach (Reached)
open MachineInt

variable {offset len : Nat} {data : List UInt8}

/-- A block is the same in two files: its header and its recorded data. -/
structure Same (o : Object) (f f' : SparseFile UInt8) (b : Nat) : Prop where
  recorded : recorded o f' b = recorded o f b
  digest : storedDigest o f' b = storedDigest o f b
  data : blockData o f' b = blockData o f b

variable {o : Object} {f f' f'' : SparseFile UInt8} {b : Nat}

theorem Same.trans (h : Same o f f' b) (h' : Same o f' f'' b) : Same o f f'' b :=
  ⟨h'.recorded.trans h.recorded, h'.digest.trans h.digest, h'.data.trans h.data⟩

theorem Same.corrupt_iff (h : Same o f f' b) : Corrupt o f' b ↔ Corrupt o f b := by
  rw [Corrupt, h.recorded, h.digest, h.data, Corrupt]

theorem same_putBlock (hs : Shaped o f) {b' bs} (hfit : offset + bs.length ≤ o.blockBytes b')
    (hne : b ≠ b') : Same o f (putBlock o f b' offset bs) b :=
  ⟨recorded_putBlock_other hfit hne, storedDigest_putBlock_other hfit hne,
    blockData_putBlock_other hfit hne (hs.fits b)⟩

variable {d : Depot} {m : Mapping} {v : WriteVars}

/-- What a write has done when `b` is its next block. -/
structure Writing (o : Object) (d : Depot) (m : Mapping) (b : Nat) (v : WriteVars) : Prop where
  lo : m.startBlock ≤ b
  shaped : Shaped o v.file
  written : ∀ b', b' < b → Writes o d.file m b' → ¬Corrupt o v.file b'
  kept : ∀ b', b ≤ b' ∨ ¬Writes o d.file m b' → Same o d.file v.file b'
  cache : ∀ c, v.cache = some c → ∃ c₀, d.cache = some c₀ ∧ ∀ b' : Nat,
    (c.time (i32 b')).isSome → (c₀.time (i32 b')).isSome ∧ ¬(m.startBlock ≤ b' ∧ b' < b)
  tally : Tally m.startBlock (WriteFails o d m) b v.n v.err

/-- A written block is forgotten. -/
theorem Writing.cache_next (h : Writing o d m b v) (c : Cache)
    (hc : fsCacheRemove v.cache b = some c) : ∃ c₀, d.cache = some c₀ ∧ ∀ b' : Nat,
      (c.time (i32 b')).isSome →
        (c₀.time (i32 b')).isSome ∧ ¬(m.startBlock ≤ b' ∧ b' < b + 1) := by
  obtain ⟨c₁, hc₁, rfl⟩ := map_eq_some_iff.mp hc
  obtain ⟨c₀, hc₀, hknown⟩ := h.cache c₁ hc₁
  refine ⟨c₀, hc₀, ?_⟩
  intro b' hsome
  dsimp only at hsome
  by_cases hkey : i32 (b' : Int) = i32 (b : Int)
  · rw [hkey, Function.update_self] at hsome
    simp at hsome
  · rw [Function.update_of_ne hkey] at hsome
    obtain ⟨hold, hout⟩ := hknown b' hsome
    refine ⟨hold, ?_⟩
    rintro ⟨hlo, hlt⟩
    by_cases heq : b' = b
    · exact hkey (by rw [heq])
    · exact hout ⟨hlo, by omega⟩

/-- The blocks of a request that are not written are those that fail. -/
theorem writeFails_iff (hlo : m.startBlock ≤ b) (hhi : b ≤ m.endBlock) :
    WriteFails o d m b ↔ ¬Writes o d.file m b := by
  unfold WriteFails Writes
  by_cases hc : Corrupt o d.file b
  · simp only [hc, and_true, not_true, or_false]
    omega
  · simp [hc, hlo, hhi]

/-- A block is written. -/
theorem Writing.put (h : Writing o d m b v) (hsmall : o.Small) {bs}
    (hfit : offset + bs.length ≤ o.blockBytes b) (hne : bs ≠ []) (hw : Writes o d.file m b) :
    Writing o d m (b + 1) (v.after b (.good, putBlock o v.file b offset bs)) := by
  have hlo := h.lo
  have hlt := hsmall.blockBytes_lt b
  have hfits := h.shaped.fits b
  have hok : ¬WriteFails o d m b := by
    rw [writeFails_iff hlo hw.2.1]
    exact not_not_intro hw
  refine ⟨by omega, h.shaped.putBlock hsmall hfit hne, ?_, ?_, h.cache_next,
    h.tally.next hlo (iff_of_true rfl hok)⟩
  · intro b' hb' hw'
    change ¬Corrupt o (putBlock o v.file b offset bs) b'
    by_cases heq : b' = b
    · rw [heq]
      exact not_corrupt_putBlock (by omega)
    · rw [(same_putBlock h.shaped hfit heq).corrupt_iff]
      exact h.written b' (by omega) hw'
  · intro b' hb'
    have heq : b' ≠ b := by
      rintro rfl
      rcases hb' with hle | hnot
      · omega
      · exact hnot hw
    exact (h.kept b' (hb'.imp_left Nat.le_of_succ_le)).trans (same_putBlock h.shaped hfit heq)

/-- A corrupt block is left alone. -/
theorem Writing.skip (h : Writing o d m b v) (hhi : b ≤ m.endBlock) {n} (hn : n ≠ .good)
    (hw : ¬Writes o d.file m b) : Writing o d m (b + 1) (v.after b (n, v.file)) := by
  have hlo := h.lo
  have hfails : WriteFails o d m b := (writeFails_iff hlo hhi).mpr hw
  refine ⟨by omega, h.shaped, ?_, ?_, h.cache_next,
    h.tally.next hlo (iff_of_false hn (not_not_intro hfails))⟩
  · intro b' hb' hw'
    have heq : b' ≠ b := by
      rintro rfl
      exact hw hw'
    exact h.written b' (by omega) hw'
  · intro b' hb'
    by_cases heq : b' = b
    · rw [heq]
      exact h.kept b (.inl le_rfl)
    · exact h.kept b' (hb'.imp_left Nat.le_of_succ_le)

/-- The first or the last block of a write. -/
theorem Writing.merged (h : Writing o d m b v) (hsmall : o.Small)
    (hb : b = m.startBlock ∨ b = m.endBlock) (hhi : b ≤ m.endBlock)
    (hfit : offset + len ≤ o.blockBytes b) (hlen : 1 ≤ len) (hdata : len ≤ data.length) :
    Writing o d m (b + 1) (v.after b (chksumMergedWrite o v.file b offset len data)) := by
  have hsame : Corrupt o v.file b ↔ Corrupt o d.file b :=
    (h.kept b (.inl le_rfl)).corrupt_iff
  have htake : (data.take len).length = len := by
    rw [length_take, min_eq_left hdata]
  rw [chksumMergedWrite_eq hsmall h.shaped hfit hlen hdata]
  by_cases hc : Corrupt o d.file b
  · rw [if_pos (hsame.mpr hc)]
    refine h.skip hhi (badState_ne_good b) ?_
    rw [← writeFails_iff h.lo hhi]
    exact ⟨hb, hc⟩
  · rw [if_neg (hsame.not.mpr hc)]
    exact h.put hsmall (by omega) (ne_nil_of_length_pos (by omega))
      ⟨h.lo, hhi, .inr hc⟩

/-- What a write has done at its end. -/
theorem writing_walk (hsmall : o.Small) (hs : Shaped o d.file) (hm : m.Covers o offset data.length)
    (hint : m.IntMiddle) {es} (hgrants : Grants m.endBlock m.startBlock es) :
    Writing o d m (m.endBlock + 1) (walk o (writeHandlers o m data) m es
      ⟨m.startBlock, 0, ⟨d.file, d.cache, .good, .good⟩⟩).inner := by
  refine walk_rule (I := Writing o d m) (K := fun _ _ => True) hm.size_pos hint ?_ ?_ ?_ hgrants
    ⟨rfl, le_rfl, fun _ => bposOf_start.symm, ?_⟩ (keyed_true _ _)
  · intro v hv
    have hle := hm.doneAt_le (m.startBlock + 1) (by omega)
    rw [hm.doneAt_first] at hle
    exact hv.merged hsmall (.inl rfl) hm.le hm.start_fits hm.size_pos hle
  · intro _ b v hlo hhi _ hv
    have hle := hm.doneAt_le (b + 1) (by omega)
    rw [hm.doneAt_middle hlo hhi] at hle
    have hbytes : o.blockBytes b = o.blocksize := if_neg (by omega)
    have hrest : o.blocksize ≤ (data.drop (m.bposOf o b)).length := by
      rw [length_drop]
      omega
    have htake : ((data.drop (m.bposOf o b)).take o.blocksize).length = o.blocksize := by
      rw [length_take, min_eq_left hrest]
    have hpos := o.blocksize_pos
    change Writing o d m (b + 1) (v.after b (chksumFullWrite o v.file b (data.drop (m.bposOf o b))))
    rw [chksumFullWrite_eq hsmall hv.shaped (by omega) hrest]
    exact hv.put hsmall (by omega) (ne_nil_of_length_pos (by omega))
      ⟨hv.lo, le_of_lt hhi, .inl ⟨hlo, hhi⟩⟩
  · intro _ v hlt _ hv
    have hle := hm.doneAt_le (m.endBlock + 1) (by omega)
    rw [hm.doneAt_last hlt] at hle
    have hfit := hm.end_fits hlt
    refine hv.merged hsmall (.inr rfl) le_rfl (by omega) hm.end_pos ?_
    rw [length_drop]
    omega
  · refine ⟨le_rfl, hs, ?_, fun b' _ => ⟨rfl, rfl, rfl⟩, ?_, tally_start _ _⟩
    · intro b' hlt hw
      exact absurd hw.1 (not_le.mpr hlt)
    · intro c hc
      exact ⟨c, hc, fun b' hsome => ⟨hsome, by omega⟩⟩

/-- What is recorded of a call that failed. -/
theorem Depot.record_noted (d : Depot) {n err} (herr : err ≠ .good) (hn : n ≠ .good) :
    (d.record n err).state ≠ .good ∧ (d.record n err).headerState ≠ .good := by
  rw [Depot.record, if_neg herr]
  exact ⟨hn, hn⟩

variable {w : List UInt8}

theorem slice_alter (hs : Shaped o f) (hw : w.length = recorded o f b) {pos n}
    (hapart : pos + n ≤ o.dataOffset b ∨ o.dataOffset b + o.blockBytes b ≤ pos) :
    slice (f.fwrite (o.dataOffset b) w).byte pos n = slice f.byte pos n := by
  have hfits := hs.fits b
  rw [SparseFile.byte_fwrite, slice_splice_apart _ _ _ (by omega)]

/-- The header of a block lies outside the data of every block. -/
theorem Object.header_apart (o : Object) (b b' : Nat) {pos n} (hlo : o.objOffset b' ≤ pos)
    (hhi : pos + n ≤ o.dataOffset b') :
    pos + n ≤ o.dataOffset b ∨ o.dataOffset b + o.blockBytes b ≤ pos := by
  by_cases heq : b = b'
  · rw [heq]
    exact .inl hhi
  · have hap := o.blocks_apart heq
    have hoff := o.dataOffset_eq b
    omega

section

variable (hs : Shaped o f) (hw : w.length = recorded o f b)
include hs hw

theorem recorded_alter (b' : Nat) :
    recorded o (f.fwrite (o.dataOffset b) w) b' = recorded o f b' := by
  have hoff := o.dataOffset_eq b'
  rw [recorded, slice_alter hs hw (o.header_apart b b' le_rfl (by omega)), recorded]

theorem storedDigest_alter (b' : Nat) :
    storedDigest o (f.fwrite (o.dataOffset b) w) b' = storedDigest o f b' := by
  have hoff := o.dataOffset_eq b'
  rw [storedDigest, slice_alter hs hw (o.header_apart b b' (by omega) (by omega)), storedDigest]

theorem blockData_alter_self : blockData o (f.fwrite (o.dataOffset b) w) b = w := by
  rw [blockData, recorded_alter hs hw, ← hw, SparseFile.byte_fwrite, slice_splice_self]

theorem blockData_alter_other {b'} (hne : b ≠ b') :
    blockData o (f.fwrite (o.dataOffset b) w) b' = blockData o f b' := by
  have hap := o.blocks_apart hne
  have hfits := hs.fits b'
  have hoff := o.dataOffset_eq b'
  have hoff' := o.dataOffset_eq b
  rw [blockData, recorded_alter hs hw, slice_alter hs hw (by omega), blockData]

theorem Shaped.alter : Shaped o (f.fwrite (o.dataOffset b) w) := by
  refine ⟨?_, ?_⟩
  · intro b'
    rw [recorded_alter hs hw]
    exact hs.fits b'
  · intro b' hpos
    rw [recorded_alter hs hw] at hpos ⊢
    exact le_trans (hs.inside b' hpos) (SparseFile.le_size_fwrite ..)

end

/-- What holds of the object in every run: each header belongs to what was stored last, the
checksum tells the data from it, and the cache has only blocks that were checked. -/
structure Sound (o : Object) (s : Watched) : Prop where
  shaped : Shaped o s.depot.file
  digest : ∀ b, 0 < recorded o s.depot.file b →
    storedDigest o s.depot.file b = o.chksum.digest (s.stored b)
  length : ∀ b, (s.stored b).length = recorded o s.depot.file b
  separated : ∀ b, o.chksum.digest (blockData o s.depot.file b) = o.chksum.digest (s.stored b) →
    blockData o s.depot.file b = s.stored b
  cached : ∀ c, s.depot.cache = some c → ∀ b : Nat, b < 2147483648 → (c.time (i32 b)).isSome →
    (s.verified b).isSome

variable {s : Watched} {env : CallEnv} {mem : Mem}

/-- Altered data is told from what was stored. -/
theorem Sound.corrupt_of_altered (h : Sound o s) {b} (ha : Altered o s b) :
    Corrupt o s.depot.file b := by
  have hpos : 0 < recorded o s.depot.file b := by
    by_contra hzero
    have hrec : recorded o s.depot.file b = 0 := by omega
    refine ha ?_
    have hstored := h.length b
    rw [hrec] at hstored
    rw [blockData, hrec, eq_nil_of_length_eq_zero hstored, slice_zero]
  refine ⟨hpos, ?_⟩
  rw [h.digest b hpos]
  exact fun heq => ha (h.separated b heq.symm)

theorem sound_fresh (o : Object) (maxWait : Option Int) (header : List UInt8) :
    Sound o (Watched.fresh o maxWait header) := by
  have hrec : ∀ b, recorded o (fresh o maxWait header).depot.file b = 0 :=
    recorded_fsCreateId o _ header
  refine ⟨(refines_fsCreateId o _ header).stores.shaped, ?_, ?_, ?_, ?_⟩
  · exact fun b hpos => absurd (hrec b) (ne_of_gt hpos)
  · exact fun b => (hrec b).symm
  · intro b _
    rw [blockData, hrec]
    rfl
  · intro c hc b _ hsome
    obtain ⟨wait, -, rfl⟩ := map_eq_some_iff.mp hc
    simp at hsome

section

variable (h : Sound o s)
include h

theorem Sound.alter {b w} (hw : w.length = recorded o s.depot.file b)
    (hsep : o.chksum.digest w = o.chksum.digest (s.stored b) → w = s.stored b) :
    Sound o (s.alter o b w) := by
  have hfile : (s.alter o b w).depot.file = s.depot.file.fwrite (o.dataOffset b) w := rfl
  refine ⟨h.shaped.alter hw, ?_, ?_, ?_, h.cached⟩
  · intro b' hpos
    rw [hfile, recorded_alter h.shaped hw] at hpos
    rw [hfile, storedDigest_alter h.shaped hw]
    exact h.digest b' hpos
  · intro b'
    rw [hfile, recorded_alter h.shaped hw]
    exact h.length b'
  · intro b'
    rw [hfile]
    by_cases heq : b = b'
    · subst heq
      rw [blockData_alter_self h.shaped hw]
      exact hsep
    · rw [blockData_alter_other h.shaped hw heq]
      exact h.separated b'

section

variable (hadm : Admissible o s (.read env offset len mem))
include hadm

section

variable (hmeets : Meets o s (.read env offset len mem))
include hmeets

/-- What is known of a read that stays clear of the slips. -/
theorem Sound.reading :
    Reading o s.depot env (fsMapping o offset len) ((fsMapping o offset len).endBlock + 1)
      (readVars o env s.depot offset len mem) :=
  reading_readVars hmeets.1 h.shaped hadm.1 rfl hmeets.2.1 hadm.2 hmeets.2.2.1 mem

theorem Sound.read : Sound o (s.read o env offset len mem) := by
  have hv := h.reading hadm hmeets
  have hfile : (s.read o env offset len mem).depot.file = s.depot.file := by
    change Depot.file (Depot.record _ _ _) = _
    rw [Depot.file_record]
  refine ⟨hfile ▸ h.shaped, hfile ▸ h.digest, hfile ▸ h.length, hfile ▸ h.separated, ?_⟩
  intro c hc b hb hsome
  change Depot.cache (Depot.record _ _ _) = some c at hc
  rw [Depot.cache_record] at hc
  have htracks := hv.cache
  change (readVars o env s.depot offset len mem).cache = some c at hc
  rw [hc] at htracks
  change (Option.or _ (s.verified b)).isSome
  rw [isSome_or]
  cases hc₀ : s.depot.cache with
  | none =>
    rw [hc₀] at htracks
    exact absurd htracks id
  | some c₀ =>
    rw [hc₀] at htracks
    rcases Tracks.known htracks b hb hsome with hold | ⟨t, ht⟩
    · rw [h.cached c₀ hc₀ b hb hold, Bool.or_true]
    · rw [isSome_map, List.find?_isSome.mpr ⟨(b, t), ht, by simp⟩, Bool.true_or]

theorem Sound.honest_read : Honest o s (.read env offset len mem) := by
  have hv := h.reading hadm hmeets
  obtain ⟨-, -, hkeys, hyoung, hlast⟩ := hmeets
  refine ⟨?_, ?_⟩
  · intro hgood b hlo hhi haltered
    have hok := hv.tally.err.mp hgood b hlo (Nat.lt_succ_of_le hhi)
    have hcorrupt := h.corrupt_of_altered haltered
    cases hfresh : freshAt s.depot.cache env (b - (fsMapping o offset len).startBlock) b with
    | false =>
      rw [readFails_miss hfresh] at hok
      exact absurd (.inl hcorrupt) hok
    | true =>
      cases hc : s.depot.cache with
      | none =>
        rw [hc] at hfresh
        exact absurd hfresh (by simp [freshAt])
      | some c =>
        have hsome : (c.time (i32 b)).isSome := by
          rw [hc, freshAt] at hfresh
          cases htime : c.time (i32 b) with
          | none => simp [htime] at hfresh
          | some t => rfl
        have hlt : b < 2147483648 := by
          rcases hkeys with hnone | ⟨hlt, -⟩
          · rw [hc] at hnone
            simp at hnone
          · omega
        obtain ⟨t, ht⟩ := isSome_iff_exists.mp (h.cached c hc b hlt hsome)
        exact ⟨c, t, rfl, ht, hyoung b c t hlo hhi hc ht hfresh⟩
  · intro hbad
    exact Depot.record_noted _ hbad
      (hv.tally.noted (fsMapping_covers o offset hadm.1).le hlast hbad)

end

end

/-- What is known of a write that stays clear of the slips. -/
theorem Sound.writing {m} (hm : m = fsMapping o offset data.length)
    (hadm : Admissible o s (.write env offset data))
    (hmeets : Meets o s (.write env offset data)) :
    Writing o s.depot m (m.endBlock + 1) (walk o (writeHandlers o m data) m env.grants
      ⟨m.startBlock, 0, ⟨s.depot.file, s.depot.cache, .good, .good⟩⟩).inner := by
  subst hm
  exact writing_walk hmeets.1 h.shaped (fsMapping_covers o offset hadm.1) hmeets.2.1 hadm.2

theorem Sound.honest_write (hadm : Admissible o s (.write env offset data))
    (hmeets : Meets o s (.write env offset data)) : Honest o s (.write env offset data) := by
  have hv := h.writing rfl hadm hmeets
  intro hbad
  exact Depot.record_noted _ hbad
    (hv.tally.noted (fsMapping_covers o offset hadm.1).le hmeets.2.2 hbad)

/-- What a write leaves behind is sound, if what it wrote counts as stored and its blocks as not
checked. -/
theorem Sound.of_writing {s' m v} (hv : Writing o s.depot m (m.endBlock + 1) v)
    (hfile : s'.depot.file = v.file) (hcache : s'.depot.cache = v.cache)
    (hstored : ∀ b, s'.stored b = if Writes o s.depot.file m b then
      blockData o s'.depot.file b else s.stored b)
    (hverified : ∀ b, s'.verified b = if m.startBlock ≤ b ∧ b ≤ m.endBlock then
      none else s.verified b) : Sound o s' := by
  rw [hfile] at hstored
  have hclean : ∀ b, Writes o s.depot.file m b → ¬Corrupt o v.file b := fun b hw =>
    hv.written b (Nat.lt_succ_of_le hw.2.1) hw
  refine ⟨?_, ?_, ?_, ?_, ?_⟩
  · rw [hfile]
    exact hv.shaped
  · intro b hpos
    rw [hfile] at hpos ⊢
    rw [hstored]
    split_ifs with hw
    · by_contra hne
      exact hclean b hw ⟨hpos, hne⟩
    · have hsame := hv.kept b (.inr hw)
      rw [hsame.recorded] at hpos
      rw [hsame.digest]
      exact h.digest b hpos
  · intro b
    rw [hfile, hstored]
    split_ifs with hw
    · rw [blockData, length_slice]
    · rw [(hv.kept b (.inr hw)).recorded]
      exact h.length b
  · intro b
    rw [hfile, hstored]
    split_ifs with hw
    · exact fun _ => rfl
    · rw [(hv.kept b (.inr hw)).data]
      exact h.separated b
  · intro c hc b hb hsome
    rw [hcache] at hc
    obtain ⟨c₀, hc₀, hknown⟩ := hv.cache c hc
    obtain ⟨hold, hout⟩ := hknown b hsome
    rw [hverified, if_neg (by omega)]
    exact h.cached c₀ hc₀ b hb hold

theorem Sound.write (hadm : Admissible o s (.write env offset data))
    (hmeets : Meets o s (.write env offset data)) : Sound o (s.write o env offset data) :=
  h.of_writing (h.writing rfl hadm hmeets) (Depot.file_record _ _ _) (Depot.cache_record _ _ _)
    (fun _ => rfl) (fun _ => rfl)

end

/-- Every run that stays clear of the slips is sound. -/
theorem sound_of_reached {maxWait header}
    (h : Reached (Watched.fresh o maxWait header) (Watched.step o) (fun s e => Admissible o s e ∧
      Meets o s e) s) : Sound o s := by
  refine h.invariant (sound_fresh o maxWait header) ?_
  rintro s e s' hs ⟨hadm, hmeets⟩ htaken
  cases e with
  | alter b w =>
    rw [step] at htaken
    split at htaken
    · cases htaken
      exact hs.alter ‹_› hadm
    · simp at htaken
  | read env offset len mem =>
    cases htaken
    exact hs.read hadm hmeets
  | write env offset data =>
    cases htaken
    exact hs.write hadm hmeets

/-- In every run that stays clear of the slips every step is honest. -/
theorem honest_of_reached (o : Object) (maxWait : Option Int) (header : List UInt8) (s : Watched)
    (h : Reached (Watched.fresh o maxWait header) (Watched.step o)
      (fun s e => Admissible o s e ∧ Meets o s e) s) (e : Event) (hadm : Admissible o s e)
    (hmeets : Meets o s e) : Honest o s e := by
  have hs := sound_of_reached h
  cases e with
  | alter b w => trivial
  | read env offset len mem => exact hs.honest_read hadm hmeets
  | write env offset data => exact hs.honest_write hadm hmeets

/-- Three bytes are written over three blocks, and then one block is altered. -/
def alteredObject (b : Nat) : Watched :=
  ((Watched.fresh byteObject (some 100) []).write byteObject (wholeGrant 2) 0 [7, 8, 9]).alter
    byteObject b [99]

/-- The lock gives the last block its own grant. -/
def splitGrant : CallEnv := ⟨[1, 2], fun _ => 0, fun _ => 0, fun _ _ => false⟩

theorem reached_alteredObject {b} (hb : b = 0 ∨ b = 2) :
    Reached (Watched.fresh byteObject (some 100) []) (Watched.step byteObject)
      (fun s e => Admissible byteObject s e ∧ Meets byteObject s e) (alteredObject b) := by
  have hgrants : Grants 2 0 [2] := .last (by decide)
  have hadm : Admissible byteObject (fresh byteObject (some 100) [])
      (.write (wholeGrant 2) 0 [7, 8, 9]) := ⟨by decide, hgrants⟩
  have hmeets : Meets byteObject (fresh byteObject (some 100) [])
      (.write (wholeGrant 2) 0 [7, 8, 9]) := by
    refine ⟨⟨by decide, by decide⟩, .inr (by decide), ?_⟩
    rintro ⟨b, -, -, -, hcorrupt⟩
    exact absurd (recorded_fsCreateId byteObject _ [] b) (ne_of_gt hcorrupt.recorded_pos)
  have hlength : recorded byteObject ((fresh byteObject (some 100) []).write byteObject
      (wholeGrant 2) 0 [7, 8, 9]).depot.file b = 1 := by
    rcases hb with rfl | rfl <;> decide +kernel
  have hdigest : sumChksum.digest [99] ≠ sumChksum.digest (((fresh byteObject (some 100)
      []).write byteObject (wholeGrant 2) 0 [7, 8, 9]).stored b) := by
    rcases hb with rfl | rfl <;> decide +kernel
  exact .step (.step .start ⟨hadm, hmeets⟩ rfl) (a := .alter b [99])
    ⟨fun heq => absurd heq hdigest, trivial⟩ (if_pos hlength.symm)

/-- A read under grants of single blocks notices the altered block. -/
theorem altered_block_noticed :
    Honest byteObject (alteredObject 2) (.read splitGrant 0 3 fun _ => 0) := by
  have hgrants : Grants 2 0 [1, 2] := .more (by decide) (by decide) (.last (by decide))
  refine honest_of_reached byteObject _ [] _ (reached_alteredObject (.inr rfl)) _
    ⟨by decide, hgrants⟩ ⟨⟨by decide, by decide⟩, .inr (by decide), .inr ⟨by decide, ?_⟩, ?_, ?_⟩
  · exact ⟨by decide, by simp⟩
  · intro b c t _ _ _ hverified
    exact absurd hverified (by simp [alteredObject, alter, write, fresh])
  · intro _
    refine .inl ?_
    decide +kernel

/-- A read under one grant looks up its last block under the number of a block it has just checked,
and serves the altered block as good. If only the first block is altered then the read fails, but
the object keeps a good state. -/
theorem altered_block_served :
    (Reached (Watched.fresh byteObject (some 100) []) (Watched.step byteObject)
        (fun s e => Admissible byteObject s e ∧ Meets byteObject s e) (alteredObject 2) ∧
      Admissible byteObject (alteredObject 2) (.read (wholeGrant 2) 0 3 fun _ => 0) ∧
      ¬Honest byteObject (alteredObject 2) (.read (wholeGrant 2) 0 3 fun _ => 0)) ∧
    (Reached (Watched.fresh byteObject (some 100) []) (Watched.step byteObject)
        (fun s e => Admissible byteObject s e ∧ Meets byteObject s e) (alteredObject 0) ∧
      Admissible byteObject (alteredObject 0) (.read splitGrant 0 3 fun _ => 0) ∧
      ¬Honest byteObject (alteredObject 0) (.read splitGrant 0 3 fun _ => 0)) := by
  have hwhole : Grants 2 0 [2] := .last (by decide)
  have hsplit : Grants 2 0 [1, 2] := .more (by decide) (by decide) (.last (by decide))
  refine ⟨⟨reached_alteredObject (.inr rfl), ⟨by decide, hwhole⟩, ?_⟩,
    reached_alteredObject (.inl rfl), ⟨by decide, hsplit⟩, ?_⟩
  · rintro ⟨hserved, -⟩
    obtain ⟨c, t, -, hverified, -⟩ := hserved (by decide +kernel) 2 (by decide) (by decide)
      (by unfold Altered; decide +kernel)
    exact absurd hverified (by simp [alteredObject, alter, write, fresh])
  · rintro ⟨-, hnoted⟩
    exact (hnoted (by decide +kernel)).1 (by decide +kernel)

end LStore.Osd
