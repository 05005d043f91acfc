import LStore.Osd.Corruption

/-!
# The cache during a read

When every block is looked up under its own number, the entries of the blocks that a read has not
reached yet are those from before the call, less the ones dropped meanwhile, and a new entry
belongs to a block that the call has checked. So which blocks fail is known before the call.
-/

namespace LStore.Osd

open Splice List
open MachineInt

variable {key : Nat}

theorem i32_ne {b b' : Nat} (h : b < 2147483648) (h' : b' < 2147483648) (hne : b' ≠ b) :
    i32 (b' : Int) ≠ i32 (b : Int) := by
  unfold i32
  omega

/-- The cache `c` when `b` is the next block of a read that starts at block `sb` with `c₀`. -/
structure Tracks (env : CallEnv) (sb b : Nat) (checks : List (Nat × Int)) (c₀ c : Cache) :
    Prop where
  wait : c.maxWait = c₀.maxWait
  ahead : ∀ b' : Nat, b ≤ b' → b' < 2147483648 →
    c.time (i32 b') = if dropped env (b - sb) (i32 b') then none else c₀.time (i32 b')
  known : ∀ b' : Nat, b' < 2147483648 → (c.time (i32 b')).isSome →
    (c₀.time (i32 b')).isSome ∨ ∃ t, (b', t) ∈ checks

/-- The same for a cache that may be disabled. -/
def TracksOpt (env : CallEnv) (sb b : Nat) (checks : List (Nat × Int)) :
    Option Cache → Option Cache → Prop
  | none, none => True
  | some c₀, some c => Tracks env sb b checks c₀ c
  | _, _ => False

theorem dropped_succ (env : CallEnv) (k : Nat) (key : Int) :
    dropped env (k + 1) key = (dropped env k key || env.drop k key) := by
  simp [dropped, range_succ]

variable {env : CallEnv} {sb b : Nat} {checks : List (Nat × Int)} {c₀ c : Option Cache}

theorem tracksOpt_start (env : CallEnv) (sb : Nat) (c : Option Cache) :
    TracksOpt env sb sb [] c c := by
  cases c with
  | none => trivial
  | some c =>
    refine ⟨rfl, ?_, fun _ _ h => .inl h⟩
    intro b' _ _
    rw [Nat.sub_self]
    rfl

/-- An update of the entry of a block that is done. -/
theorem Tracks.update {c₀ c : Cache} (h : Tracks env sb (b + 1) checks c₀ c) (hb : b < 2147483648)
    (t : Option Int) (ht : t.isSome → (c₀.time (i32 b)).isSome ∨ ∃ t, (b, t) ∈ checks) :
    Tracks env sb (b + 1) checks c₀ { c with time := Function.update c.time (i32 b) t } := by
  refine ⟨h.wait, ?_, ?_⟩
  · intro b' hle hlt
    have hne : i32 (b' : Int) ≠ i32 (b : Int) := i32_ne hb hlt (by omega)
    dsimp only
    rw [Function.update_of_ne hne]
    exact h.ahead b' hle hlt
  · intro b' hlt hsome
    dsimp only at hsome
    by_cases heq : b' = b
    · subst heq
      rw [Function.update_self] at hsome
      exact ht hsome
    · rw [Function.update_of_ne (i32_ne hb hlt heq)] at hsome
      exact h.known b' hlt hsome

theorem Tracks.mono {c₀ c} (h : Tracks env sb b checks c₀ c) (e : Nat × Int) :
    Tracks env sb b (e :: checks) c₀ c := by
  refine ⟨h.wait, h.ahead, ?_⟩
  intro b' hlt hsome
  rcases h.known b' hlt hsome with hold | ⟨t, ht⟩
  · exact .inl hold
  · exact .inr ⟨t, mem_cons_of_mem e ht⟩

theorem Tracks.evict {c₀ c} (h : Tracks env sb b checks c₀ c) (hle : sb ≤ b) :
    Tracks env sb (b + 1) checks c₀
      { c with time := fun k => if env.drop (b - sb) k then none else c.time k } := by
  refine ⟨h.wait, ?_, ?_⟩
  · intro b' hb' hlt
    rw [show b + 1 - sb = b - sb + 1 by omega, dropped_succ]
    dsimp only
    rw [h.ahead b' (by omega) hlt]
    cases env.drop (b - sb) (i32 b') <;> cases dropped env (b - sb) (i32 b') <;> rfl
  · intro b' hlt hsome
    refine h.known b' hlt ?_
    dsimp only at hsome
    split at hsome
    · simp at hsome
    · exact hsome

/-- The key of a block does not matter if there is no cache, and else is its number. -/
def KeyOf (c : Option Cache) (key b : Nat) : Prop := c = none ∨ key = b ∧ b < 2147483648

/-- Looking up the next block finds what was there before the call. -/
theorem TracksOpt.lookup (h : TracksOpt env sb b checks c₀ c) (hle : sb ≤ b) (hkey : KeyOf c₀ key b)
    :
    (fsDirectCacheRead (evict (env.drop (b - sb)) c) key (env.now (b - sb))).1 =
        freshAt c₀ env (b - sb) b ∧
      TracksOpt env sb (b + 1) checks c₀
        (fsDirectCacheRead (evict (env.drop (b - sb)) c) key (env.now (b - sb))).2 := by
  match c₀, c, h with
  | none, none, _ => exact ⟨rfl, trivial⟩
  | some c₀, some c, htracks =>
    obtain ⟨rfl, hb⟩ := hkey.resolve_left (by simp)
    have hev := htracks.evict hle
    have htime : (if env.drop (key - sb) (i32 key) then none else c.time (i32 key)) =
        if dropped env (key - sb + 1) (i32 key) then none else c₀.time (i32 key) := by
      rw [dropped_succ, htracks.ahead key le_rfl hb]
      cases env.drop (key - sb) (i32 key) <;> cases dropped env (key - sb) (i32 key) <;> rfl
    simp only [evict, Option.map_some, fsDirectCacheRead, freshAt, htime]
    cases hdrop : dropped env (key - sb + 1) (i32 key) with
    | true =>
      refine ⟨?_, hev⟩
      cases c₀.time (i32 key) <;> rfl
    | false =>
      simp only [Bool.false_eq_true, if_false]
      cases hold : c₀.time (i32 key) with
      | none => exact ⟨rfl, hev⟩
      | some t =>
        have hsome : (c₀.time (i32 key)).isSome := by rw [hold]; rfl
        have hhit := hev.update hb (some (env.now (key - sb))) fun _ => .inl hsome
        have hmiss := hev.update hb none fun hnone => absurd hnone (by simp)
        dsimp only
        rw [htracks.wait]
        split_ifs with hfresh
        · exact ⟨by simp [hfresh], by rw [← htracks.wait]; exact hhit⟩
        · exact ⟨by simp [hfresh], by rw [← htracks.wait]; exact hmiss⟩

theorem TracksOpt.remove (h : TracksOpt env sb (b + 1) checks c₀ c) (hkey : KeyOf c₀ key b) :
    TracksOpt env sb (b + 1) checks c₀ (fsCacheRemove c key) := by
  match c₀, c, h with
  | none, none, _ => trivial
  | some c₀, some c, htracks =>
    obtain ⟨rfl, hb⟩ := hkey.resolve_left (by simp)
    exact htracks.update hb none fun hnone => absurd hnone (by simp)

theorem TracksOpt.mono (h : TracksOpt env sb b checks c₀ c) (e : Nat × Int) :
    TracksOpt env sb b (e :: checks) c₀ c := by
  match c₀, c, h with
  | none, none, _ => trivial
  | some c₀, some c, htracks => exact Tracks.mono htracks e

theorem TracksOpt.add (h : TracksOpt env sb (b + 1) checks c₀ c) (hkey : KeyOf c₀ key b) (t : Int) :
    TracksOpt env sb (b + 1) ((b, t) :: checks) c₀ (fsCacheAdd c key t) := by
  match c₀, c, h with
  | none, none, _ => trivial
  | some c₀, some c, htracks =>
    obtain ⟨rfl, hb⟩ := hkey.resolve_left (by simp)
    have hmono := htracks.mono (key, t)
    have hadd := hmono.update hb (some t) fun _ => .inr ⟨t, mem_cons_self⟩
    rw [fsCacheAdd, Option.map_some]
    cases c.time (i32 key) with
    | some _ => exact hmono
    | none => exact hadd

theorem dataRead_good_iff {o f b offset len} (hlen : 1 ≤ len) (mem : Mem) (bpos : Nat) :
    (chksumDirectRead o f b offset len mem bpos).1 = .good ↔
      ¬f.size < o.dataOffset b + (offset + len) := by
  rw [chksumDirectRead, SparseFile.length_fread]
  split
  · refine iff_of_false (by simp) ?_
    omega
  · refine iff_of_true rfl ?_
    omega

theorem badState_ne_good (b : Nat) : badState b ≠ .good := by
  unfold badState
  split <;> decide

theorem ite_badState_good_iff {p} [Decidable p] (b : Nat) :
    (if p then badState b else .good) = OsdState.good ↔ ¬p := by
  split
  · exact iff_of_false (badState_ne_good b) fun hn => hn ‹_›
  · exact iff_of_true rfl ‹_›

/-- The two result variables of a call when `b` is its next block: `err` has seen whether any block
failed, and `n` whether the one before did. -/
structure Tally (first : Nat) (fails : Nat → Prop) (b : Nat) (n err : OsdState) : Prop where
  err : err = .good ↔ ∀ b', first ≤ b' → b' < b → ¬fails b'
  n : first < b → (n = .good ↔ ¬fails (b - 1))

variable {first : Nat} {fails : Nat → Prop} {n err : OsdState}

theorem tally_start (first : Nat) (fails : Nat → Prop) : Tally first fails first .good .good :=
  ⟨iff_of_true rfl fun _ hlo hlt => absurd hlt (not_lt.mpr hlo),
    fun hlt => absurd hlt (lt_irrefl _)⟩

theorem Tally.next (h : Tally first fails b n err) (hlo : first ≤ b) {n'}
    (hres : n' = .good ↔ ¬fails b) :
    Tally first fails (b + 1) n' (if n' = .good then err else n') := by
  refine ⟨?_, fun _ => hres⟩
  constructor
  · intro hgood b' hb' hlt
    split_ifs at hgood with hn
    · by_cases heq : b' = b
      · rw [heq]
        exact hres.mp hn
      · exact h.err.mp hgood b' hb' (by omega)
    · exact absurd hgood hn
  · intro hall
    rw [if_pos (hres.mpr (hall b hlo (Nat.lt_succ_self b)))]
    exact h.err.mpr fun b' hb' hlt => hall b' hb' (by omega)

/-- If the last block of a request fails whenever one does, then `n` tells of it. -/
theorem Tally.noted {m} (h : Tally m.startBlock fails (m.endBlock + 1) n err)
    (hle : m.startBlock ≤ m.endBlock) (hlast : LastFails m fails) (herr : err ≠ .good) :
    n ≠ .good := by
  have hn := h.n (Nat.lt_succ_of_le hle)
  intro hgood
  refine herr (h.err.mpr fun b hlo hlt hfails => hn.mp hgood (hlast ⟨b, hlo, ?_, hfails⟩))
  exact Nat.le_of_lt_succ hlt

variable {o : Object} {d : Depot} {m : Mapping} {v : ReadVars}
variable {es : List Nat} {res : OsdState × Mem}

/-- What a read has done when `b` is its next block. -/
structure Reading (o : Object) (d : Depot) (env : CallEnv) (m : Mapping) (b : Nat) (v : ReadVars) :
    Prop where
  lo : m.startBlock ≤ b
  k : v.k = b - m.startBlock
  cache : TracksOpt env m.startBlock b v.checks d.cache v.cache
  tally : Tally m.startBlock (ReadFails o d env m) b v.n v.err

/-- A block is read. -/
theorem Reading.next (h : Reading o d env m b v) {cache checks}
    (hcache : TracksOpt env m.startBlock (b + 1) checks d.cache cache)
    (hres : res.1 = .good ↔ ¬ReadFails o d env m b) :
    Reading o d env m (b + 1) (v.after cache checks res) := by
  have hlo := h.lo
  refine ⟨by omega, ?_, hcache, h.tally.next hlo hres⟩
  change v.k + 1 = _
  rw [h.k]
  omega

/-- Reading the block without a check fails. -/
def DirectFails (o : Object) (f : SparseFile UInt8) (m : Mapping) (b : Nat) : Prop :=
  f.size < o.dataOffset b + m.pieceEnd o b

/-- Reading the block with a check fails. -/
def CheckedFails (o : Object) (f : SparseFile UInt8) (m : Mapping) (b : Nat) : Prop :=
  Corrupt o f b ∨ m.startBlock < b ∧ b < m.endBlock ∧ f.size < o.dataOffset b

/-- The lookup of the next block. -/
theorem Reading.lookup (h : Reading o d env m b v) (hkey : KeyOf d.cache key b) :
    (v.lookup env key).1 = freshAt d.cache env (b - m.startBlock) b ∧
      TracksOpt env m.startBlock (b + 1) v.checks d.cache (v.lookup env key).2 := by
  rw [ReadVars.lookup, h.k]
  exact h.cache.lookup h.lo hkey

theorem readFails_hit (hit : freshAt d.cache env (b - m.startBlock) b = true) :
    ReadFails o d env m b ↔ DirectFails o d.file m b := by
  rw [ReadFails, if_pos hit]
  rfl

theorem readFails_miss (hit : freshAt d.cache env (b - m.startBlock) b = false) :
    ReadFails o d env m b ↔ CheckedFails o d.file m b := by
  rw [ReadFails, if_neg (by rw [hit]; decide)]
  rfl

theorem Reading.through (h : Reading o d env m b v) (hkey : KeyOf d.cache key b) {direct checked}
    (hdirect : ∀ mem, (direct mem).1 = .good ↔ ¬DirectFails o d.file m b)
    (hchecked : ∀ mem, (checked mem).1 = .good ↔ ¬CheckedFails o d.file m b) :
    Reading o d env m (b + 1) (v.through env key b direct checked) := by
  obtain ⟨hhit, hcache⟩ := h.lookup hkey
  rw [ReadVars.through]
  dsimp only
  rw [hhit]
  cases hfresh : freshAt d.cache env (b - m.startBlock) b with
  | true =>
    refine h.next ?_ (by rw [readFails_hit hfresh]; exact hdirect _)
    split
    · exact hcache
    · exact hcache.remove hkey
  | false =>
    refine h.next ?_ (by rw [readFails_miss hfresh]; exact hchecked _)
    rw [ReadVars.checked]
    split
    · exact hcache.add hkey _
    · exact hcache

/-- The last block is looked up under the key and removed under its own number. -/
theorem Reading.last (h : Reading o d env m m.endBlock v) (hkey : KeyOf d.cache key m.endBlock)
    {hit} (hhit : hit = (v.lookup env key).1)
    (hdirect : hit = true → (res.1 = .good ↔ ¬DirectFails o d.file m m.endBlock))
    (hchecked : hit = false → (res.1 = .good ↔ ¬CheckedFails o d.file m m.endBlock)) :
    Reading o d env m (m.endBlock + 1)
      (v.after (if res.1 = .good then (v.lookup env key).2
          else fsCacheRemove (v.lookup env key).2 m.endBlock)
        (if hit then v.checks else v.checked env m.endBlock res.1) res) := by
  obtain ⟨hfresh, hcache⟩ := h.lookup hkey
  have hself : KeyOf d.cache m.endBlock m.endBlock := hkey.imp_right fun hk => ⟨rfl, hk.2⟩
  have hcache' : TracksOpt env m.startBlock (m.endBlock + 1) v.checks d.cache
      (if res.1 = .good then (v.lookup env key).2
        else fsCacheRemove (v.lookup env key).2 m.endBlock) := by
    split
    · exact hcache
    · exact hcache.remove hself
  rw [hfresh] at hhit
  cases hit with
  | true => exact h.next hcache' (by rw [readFails_hit hhit.symm]; exact hdirect rfl)
  | false =>
    refine h.next ?_ (by rw [readFails_miss hhit.symm]; exact hchecked rfl)
    rw [if_neg (by decide), ReadVars.checked]
    split
    · exact hcache.mono _
    · exact hcache.remove hself

theorem Grants.mem_le {e b} (h : Grants e b es) : ∀ g ∈ es, g ≤ e := by
  induction h with
  | last _ => simp
  | more _ lt _ ih =>
    exact forall_mem_cons.mpr ⟨le_of_lt lt, ih⟩

theorem keyed_none (b : Nat) (es : List Nat) : Keyed m (KeyOf none) b es := by
  induction es generalizing b with
  | nil => trivial
  | cons e es ih => exact ⟨fun _ _ _ => .inl rfl, ih (e + 1)⟩

theorem keyed_chain {c e} (hlo : m.startBlock ≤ e)
    (hchain : (e :: es).IsChain fun e e' => e' = e + 1) (hlt : ∀ g ∈ es, g < 2147483648) :
    Keyed m (KeyOf c) (e + 1) es := by
  induction es generalizing e with
  | nil => trivial
  | cons e' es ih =>
    rw [isChain_cons_cons] at hchain
    have hkey : m.turnKey (e + 1) = e + 1 := if_neg (by omega)
    have hlt' := hlt e' mem_cons_self
    refine ⟨?_, ih (by omega) hchain.2 fun g hg => hlt g (mem_cons_of_mem _ hg)⟩
    intro c hc hle
    exact .inr ⟨by omega, by omega⟩

/-- Under single grants every block is looked up under its own number. -/
theorem keyed_single {c} (hgrants : Grants m.endBlock m.startBlock es)
    (hkeys : c = none ∨ m.endBlock < 2147483648 ∧ SingleGrants m.startBlock es) :
    Keyed m (KeyOf c) m.startBlock es := by
  rcases hkeys with rfl | ⟨hlt, hsingle⟩
  · exact keyed_none _ _
  · cases es with
    | nil => trivial
    | cons e es =>
      have hmem : ∀ g ∈ e :: es, g < 2147483648 := fun g hg =>
        lt_of_le_of_lt (hgrants.mem_le g hg) hlt
      have hlo : m.startBlock ≤ e := by
        cases hgrants with
        | last le => exact le
        | more le _ _ => exact le
      have hlt' := hmem e mem_cons_self
      have hkey : m.turnKey m.startBlock = m.startBlock + 1 := if_pos rfl
      refine ⟨?_, keyed_chain hlo hsingle.2 (forall_mem_cons.mp hmem).2⟩
      intro c hc hle
      have hfirst := hsingle.1
      exact .inr ⟨by omega, by omega⟩

/-- What a read has done at its end. -/
theorem reading_readVars (hsmall : o.Small) (hs : Shaped o d.file) {offset len} (hlen : 1 ≤ len)
    (hmap : m = fsMapping o offset len) (hint : m.IntMiddle)
    (hgrants : Grants m.endBlock m.startBlock env.grants)
    (hkeys : d.cache = none ∨ m.endBlock < 2147483648 ∧ SingleGrants m.startBlock env.grants)
    (mem : Mem) : Reading o d env m (m.endBlock + 1) (readVars o env d offset len mem) := by
  have hm : m.Covers o offset len := hmap ▸ fsMapping_covers o offset hlen
  rw [readVars, ← hmap]
  have hle := hm.le
  have hfirstKey : KeyOf d.cache m.startBlock m.startBlock :=
    hkeys.imp_right fun hk => ⟨rfl, by omega⟩
  refine walk_rule (I := Reading o d env m) (K := KeyOf d.cache) hm.size_pos hint ?_ ?_ ?_ hgrants
    ⟨rfl, le_rfl, fun _ => bposOf_start.symm, ?_⟩ (keyed_single hgrants hkeys)
  · intro v hv
    have hend : m.pieceEnd o m.startBlock = m.startOffset + m.startSize := if_pos rfl
    rw [readHandlers_first]
    refine hv.through hfirstKey (fun mem => ?_) (fun mem => ?_)
    · rw [DirectFails, hend]
      exact dataRead_good_iff hm.size_pos mem 0
    · rw [chksumMergedRead_eq hsmall hs, ite_badState_good_iff, CheckedFails]
      simp
  · intro key b v hlo hhi hkey hv
    have hend : m.pieceEnd o b = 0 + o.blocksize := by
      rw [Mapping.pieceEnd, if_neg (by omega), if_neg (by omega), zero_add]
    rw [readHandlers_middle]
    refine hv.through hkey (fun mem => ?_) (fun mem => ?_)
    · rw [DirectFails, hend]
      exact dataRead_good_iff o.blocksize_pos mem _
    · rw [chksumFullRead_eq hsmall hs (by omega), ite_badState_good_iff, CheckedFails]
      simp [hlo, hhi, or_comm]
  · intro key v hlt hkey hv
    have hend : m.pieceEnd o m.endBlock = 0 + m.endSize := by
      rw [Mapping.pieceEnd, if_neg (by omega), if_pos rfl, zero_add]
    refine hv.last hkey rfl ?_ ?_
    · intro hhit
      rw [if_pos hhit, DirectFails, hend]
      exact dataRead_good_iff hm.end_pos v.mem _
    · intro hhit
      rw [if_neg (by rw [hhit]; decide), chksumMergedRead_eq hsmall hs, ite_badState_good_iff,
        CheckedFails]
      simp
  · exact ⟨le_rfl, (Nat.sub_self _).symm, tracksOpt_start _ _ _, tally_start _ _⟩

end LStore.Osd
