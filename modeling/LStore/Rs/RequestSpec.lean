import Mathlib.Data.List.Nodup
import LStore.Rs.Request

/-!
# All or nothing

A turn of the loop over the indices ends with a resource, with an error that is counted, or
without either. A request succeeds if no error was counted and its last turn found a resource,
so that an index fixed by a hint whose turn ended without either is passed over.
-/

namespace LStore.Rs

open List
open Option hiding pure_def map_map mem_map

variable {st st' : ReqState} {is : List Nat}

variable {rse : RidEntry} {n : Nat} {m m' : Machine}

theorem runEle_stack_ne_nil {q} (h : runEle rse n m q = some m') : m'.stack ≠ [] := by
  cases hop : q.op with
  | kv =>
    simp only [runEle, hop, bind_eq_bind, bind_eq_some_iff, Option.pure_def,
      some.injEq] at h
    obtain ⟨_, _, rfl⟩ := h
    simp
  | not =>
    cases hs : m.stack with
    | nil => simp [runEle, hop, hs] at h
    | cons a stack =>
      simp only [runEle, hop, hs, some.injEq] at h
      simp [← h]
  | and =>
    rcases hs : m.stack with _ | ⟨a, _ | ⟨b, stack⟩⟩
    · simp [runEle, hop, hs] at h
    · simp only [runEle, hop, hs, ite_none_right_eq_some, some.injEq] at h
      simp [← h.2]
    · simp only [runEle, hop, hs, some.injEq] at h
      simp [← h]
  | or =>
    rcases hs : m.stack with _ | ⟨a, _ | ⟨b, stack⟩⟩ <;>
      simp only [runEle, hop, hs, some.injEq] at h <;> simp [← h]
  | other =>
    simp only [runEle, hop, some.injEq] at h
    simp [← h]

theorem runQuery_stack_ne_nil {qs} (h : runQuery rse n qs m = some m')
    (hne : qs ≠ [] ∨ m.stack ≠ []) : m'.stack ≠ [] := by
  induction qs generalizing m with
  | nil =>
    rw [runQuery, some.injEq] at h
    rw [← h]
    exact hne.resolve_left (by simp)
  | cons q qs ih =>
    rw [runQuery] at h
    split at h
    · simp at h
    · next m₁ hele => exact ih h (.inr (runEle_stack_ne_nil hele))

/-- The query of an index has no element. -/
def Call.emptyQuery (c : Call) (i : Nat) : Prop := c.query = [] ∧ (c.queryLocal i).getD [] = []

theorem evalRid_top {c i g l rse r} (h : evalRid c i g l rse = some r) :
    r.1 = none ↔ c.emptyQuery i := by
  rw [evalRid] at h
  split at h
  · simp at h
  · next m hm =>
      rw [Call.emptyQuery]
      split at h
      · next hlocal =>
          rw [← some.inj h, hlocal]
          simp only [List.head?_eq_none_iff, getD_none, and_true]
          constructor
          · intro hempty
            by_contra hne
            exact runQuery_stack_ne_nil hm (.inl hne) hempty
          · intro hempty
            rw [hempty, runQuery, some.injEq] at hm
            rw [← hm]
      · next q hlocal =>
          split at h
          · simp at h
          · next m' hm' =>
              rw [← some.inj h, hlocal]
              simp only [List.head?_eq_none_iff, getD_some]
              constructor
              · intro hempty
                constructor
                · by_contra hne
                  have hleft : m.stack ≠ [] := runQuery_stack_ne_nil hm (.inl hne)
                  exact runQuery_stack_ne_nil hm' (.inr hleft) hempty
                · by_contra hne
                  exact runQuery_stack_ne_nil hm' (.inl hne) hempty
              · rintro ⟨hquery, hq⟩
                rw [hquery, runQuery, some.injEq] at hm
                rw [hq, runQuery, some.injEq] at hm'
                rw [← hm', ← hm]

/-- The turn of an index fixed by the request ends with neither a resource nor an error: the
resource of the hint is not in the table, the query is empty, or no resource is left to pick. -/
def Call.Skips (c : Call) (i : Nat) (st : ReqState) : Prop :=
  i < c.fixedSize ∧ c.invalidLocal i = false ∧
    ((∃ key, c.fixedKey i = some key ∧ c.slotOf key = none) ∨ c.emptyQuery i ∨
      ∀ rse ∈ c.rids, pickTest (c.pickFrom i) st.changes (changeOf st.req i) rse = none)

variable {c : Call} {i : Nat} {changes : Nat → RidChange} {change : Int}

/-- The scan of a fixed index goes on only past resources that may not be picked, or with an
empty query. -/
theorem scan_fixed (hi : i < c.fixedSize) {retry slots s s' e}
    (h : scan c i retry changes change slots s = some (s', e)) :
    e = .exhausted ↔ c.emptyQuery i ∨ ∀ slot ∈ slots, ∀ rse, c.rids[slot]? = some rse →
      pickTest (c.pickFrom i) changes change rse = none := by
  have hfixed : ¬ c.fixedSize ≤ i := not_le.mpr hi
  induction slots generalizing s with
  | nil =>
    rw [scan, some.injEq, Prod.mk.injEq] at h
    simp [← h.2]
  | cons slot slots ih =>
    rw [scan] at h
    split at h
    · simp at h
    · next rse hrse =>
        simp only [forall_mem_cons, hrse, some.injEq, forall_eq']
        split at h
        · next hpick =>
            refine (ih h).trans ?_
            simp [hpick]
        · next ridChange hpick =>
            simp only [hfixed, and_false, false_and, if_false] at h
            split at h
            · simp at h
            · next top g l heval =>
                have htop := evalRid_top heval
                simp only [hpick, reduceCtorEq, false_and, or_false]
                cases top with
                | none =>
                  refine (ih h).trans ?_
                  simp [htop.mp rfl]
                | some state =>
                  have hfull : ¬ c.emptyQuery i := fun hempty => by simpa using htop.mpr hempty
                  simp only [hi, if_true] at h
                  split at h
                  all_goals
                    rw [some.injEq, Prod.mk.injEq] at h
                    simp [← h.2, hfull]

theorem mem_slotsFrom {off n slot} (hn : slot < n) : slot ∈ slotsFrom off n := by
  refine mem_map.mpr ⟨(slot + (n - off % n)) % n, ?_, ?_⟩
  · exact mem_range.mpr (Nat.mod_lt _ (by omega))
  · have hoff := Nat.mod_lt off (show 0 < n by omega)
    rw [Nat.add_mod_mod, ← Nat.mod_add_mod, ← Nat.add_assoc, Nat.add_right_comm,
      Nat.add_sub_cancel' hoff.le, Nat.add_mod_left, Nat.mod_eq_of_lt hn]

/-- The scans of an index end with a resource of the table, or without one; a fixed index that
may pick a resource and has a query does not run out of slots. -/
theorem scanIndex_fixed (hi : i < c.fixedSize) {off s e} (h : scanIndex c i off st = some (s, e)) :
    e = .exhausted ↔ c.emptyQuery i ∨
      ∀ rse ∈ c.rids, pickTest (c.pickFrom i) st.changes (changeOf st.req i) rse = none := by
  have hfixed : ¬ c.fixedSize ≤ i := not_le.mpr hi
  have hscan : scan c i false st.changes (changeOf st.req i) (slotsFrom off c.rids.length)
      ⟨st.kvqGlobal, st.kvqLocal, false, false⟩ = some (s, e) := by
    rw [scanIndex] at h
    split at h
    · next s₁ hs₁ =>
        rw [if_neg (by simp [hfixed])] at h
        rw [hs₁, h]
    · exact h
  rw [scan_fixed hi hscan]
  refine or_congr_right ⟨fun hnone rse hrse => ?_, fun hnone slot _ rse hrse => ?_⟩
  · obtain ⟨slot, hslot, rfl⟩ := mem_iff_getElem.mp hrse
    exact hnone slot (mem_slotsFrom hslot) _ (List.getElem?_eq_getElem hslot)
  · exact hnone rse (mem_of_getElem? hrse)

/-- What a scan finds is in the table, up unless a hint fixes it, and accepted by the query. -/
theorem scan_found {retry slots s s' rse a}
    (h : scan c i retry changes change slots s = some (s', .found rse a)) :
    rse ∈ c.rids ∧ (c.fixedSize ≤ i → rse.status = .up) ∧
      ∃ g l tables, evalRid c i g l rse = some (some 1, tables) := by
  induction slots generalizing s with
  | nil => simp [scan] at h
  | cons slot slots ih =>
    rw [scan] at h
    split at h
    · simp at h
    next rse' hrse =>
    split at h
    · exact ih h
    by_cases hdown : rse'.status ≠ .up ∧ c.fixedSize ≤ i
    · rw [if_pos hdown] at h
      exact ih h
    by_cases hfull : c.fixedSize ≤ i ∧ retry = false ∧ rse'.tooFull = true
    · rw [if_neg hdown, if_pos hfull] at h
      exact ih h
    rw [if_neg hdown, if_neg hfull] at h
    split at h
    · simp at h
    next top g l heval =>
    cases top with
    | none => exact ih h
    | some state =>
      dsimp only at h
      split_ifs at h with hone
      · cases h
        rw [hone] at heval
        refine ⟨mem_of_getElem? hrse, fun hle => ?_, _, _, _, heval⟩
        by_contra hne
        exact hdown ⟨hne, hle⟩
      · cases h
      · exact ih h

theorem scanIndex_found {off s rse a} (h : scanIndex c i off st = some (s, .found rse a)) :
    rse ∈ c.rids ∧ (c.fixedSize ≤ i → rse.status = .up) ∧
      ∃ g l tables, evalRid c i g l rse = some (some 1, tables) := by
  simp only [scanIndex] at h
  split at h
  · split_ifs at h with hagain
    · exact scan_found h
    · cases h
  · exact scan_found h

/-- An entry with the resource it gets. -/
def RsRequest.fill (r : RsRequest) (rse : RidEntry) : RsRequest :=
  { r with ridKey := some rse.ridKey, gop := some ⟨rse.dsKey, r.size⟩ }

/-- The entries after the resources were given out by index. -/
def fillReq (pick : Nat → Option RidEntry) (req : List RsRequest) : List RsRequest :=
  req.map fun r =>
    match pick r.ridIndex with
    | some rse => r.fill rse
    | none => r

theorem fillReq_none (req : List RsRequest) : fillReq (fun _ => none) req = req := by
  simp [fillReq]

theorem fillReq_assign (pick : Nat → Option RidEntry) (i : Nat) (rse : RidEntry)
    (req : List RsRequest) : fillReq pick (assign i rse req) =
      fillReq (fun j => (pick j).or (if j = i then some rse else none)) req := by
  simp only [fillReq, assign, map_map]
  refine map_congr_left fun r _ => ?_
  by_cases hi : r.ridIndex = i
  · cases hp : pick i <;> simp [hi, hp, RsRequest.fill]
  · cases hp : pick r.ridIndex <;> simp [hi, hp]

/-- The slot from which the first scan of an index starts. -/
def Call.offset (c : Call) (i : Nat) : Nat :=
  match c.fixedKey i with
  | none => c.rnd i false
  | some key => (c.slotOf key).getD 0

/-- The scans of an index can find a resource. -/
def Call.Finds (c : Call) (i : Nat) (rse : RidEntry) : Prop :=
  ∃ st s a, scanIndex c i (c.offset i) st = some (s, .found rse a)

/-- The variables of the request after a turn. -/
structure TurnSpec (c : Call) (i : Nat) (st st' : ReqState) (e : TurnEnd) : Prop where
  found : st'.found = decide (e = .found)
  errCnt : st'.errCnt = if e = .failed then st.errCnt + 1 else st.errCnt
  given : e = .found → ∃ rse, c.Finds i rse ∧ st'.req = assign i rse st.req
  kept : e ≠ .found → st'.req = st.req

theorem finishScan_spec {c i s e} (hfound : st.found = false)
    (hscan : scanIndex c i (c.offset i) st = some (s, e)) :
    TurnSpec c i st (finishScan c i st s e).1 (finishScan c i st s e).2 := by
  cases e with
  | found rse a =>
    exact ⟨rfl, rfl, fun _ => ⟨rse, ⟨st, s, a, hscan⟩, rfl⟩, fun h => absurd rfl h⟩
  | mismatch =>
    cases hign : c.ignoreFixedErr <;> constructor <;> simp [finishScan, hign, hfound]
  | exhausted => constructor <;> simp [finishScan, hfound]

/-- The ways a turn is made. -/
theorem turn_cases {c i e} (h : turn c i st = some (st', e)) :
    (c.invalidLocal i = true ∧ e = .failed ∧ st'.found = false ∧ st'.errCnt = st.errCnt + 1 ∧
      st'.req = st.req) ∨
    (c.invalidLocal i = false ∧ (∃ key, c.fixedKey i = some key ∧ c.slotOf key = none) ∧
      e = .missed ∧ st'.found = false ∧ st'.errCnt = st.errCnt ∧ st'.req = st.req) ∨
    (c.invalidLocal i = false ∧ (∀ key, c.fixedKey i = some key → c.slotOf key ≠ none) ∧
      ∃ s end', scanIndex c i (c.offset i) { st with found := false } = some (s, end') ∧
        (st', e) = finishScan c i { st with found := false } s end') := by
  rw [turn] at h
  split at h
  · next hinvalid =>
      cases h
      exact .inl ⟨hinvalid, rfl, rfl, rfl, rfl⟩
  · next hvalid =>
      have hvalid : c.invalidLocal i = false := by simpa using hvalid
      split at h
      · next hkey =>
          obtain ⟨⟨s, end'⟩, hscan, hfinish⟩ := map_eq_some_iff.mp h
          exact .inr (.inr ⟨hvalid, by simp [hkey], s, end',
            by simpa [Call.offset, hkey] using hscan, hfinish.symm⟩)
      · next key hkey =>
          split at h
          · next hslot =>
              cases h
              exact .inr (.inl ⟨hvalid, ⟨key, hkey, hslot⟩, rfl, rfl, rfl, rfl⟩)
          · next slot hslot =>
              obtain ⟨⟨s, end'⟩, hscan, hfinish⟩ := map_eq_some_iff.mp h
              exact .inr (.inr ⟨hvalid, by simp [hkey, hslot], s, end',
                by simpa [Call.offset, hkey, hslot] using hscan, hfinish.symm⟩)

theorem turn_spec {c i e} (h : turn c i st = some (st', e)) : TurnSpec c i st st' e := by
  rcases turn_cases h with ⟨_, rfl, hf, he, hr⟩ | ⟨_, _, rfl, hf, he, hr⟩ |
    ⟨_, _, s, end', hscan, hfinish⟩
  · exact ⟨by simp [hf], by simp [he], by simp, fun _ => hr⟩
  · exact ⟨by simp [hf], by simp [he], by simp, fun _ => hr⟩
  · have hspec := finishScan_spec rfl hscan
    rw [← hfinish] at hspec
    exact ⟨hspec.found, hspec.errCnt, hspec.given, hspec.kept⟩

/-- A fixed index gets neither a resource nor an error exactly if it is passed over. -/
theorem turn_missed_iff {c i e} (h : turn c i st = some (st', e)) (hi : i < c.fixedSize)
    (hignore : c.ignoreFixedErr = false) : e = .missed ↔ c.Skips i st := by
  rcases turn_cases h with ⟨hinvalid, rfl, _⟩ | ⟨hvalid, hmissing, rfl, _⟩ |
    ⟨hvalid, hslot, s, end', hscan, hfinish⟩
  · simp [Call.Skips, hinvalid]
  · exact iff_of_true rfl ⟨hi, hvalid, .inl hmissing⟩
  · have hend : e = .missed ↔ end' = .exhausted := by
      obtain ⟨_, rfl⟩ := Prod.mk.inj hfinish
      cases end' <;> simp [hignore]
    rw [hend, scanIndex_fixed hi hscan]
    refine ⟨fun hpass => ⟨hi, hvalid, .inr hpass⟩, fun hskip => ?_⟩
    rcases hskip.2.2 with ⟨key, hkey, hnone⟩ | hpass
    · exact absurd hnone (hslot key hkey)
    · exact hpass

/-- A turn that is made, with the variables before it and its end. -/
structure Turn where
  index : Nat
  before : ReqState
  ends : TurnEnd

/-- The turns of the loop. -/
def turns (c : Call) : List Nat → ReqState → List Turn
  | [], _ => []
  | i :: is, st =>
    match turn c i st with
    | none => []
    | some (st', e) =>
      ⟨i, st, e⟩ ::
        if e = .missed ∧ c.fixedSize ≤ i ∧ c.partialOk = false then [] else turns c is st'

theorem mem_turns {c t} (h : t ∈ turns c is st) :
    ∃ st', turn c t.index t.before = some (st', t.ends) := by
  induction is generalizing st with
  | nil => simp [turns] at h
  | cons i is ih =>
    rw [turns] at h
    split at h
    · simp at h
    · next st' e hturn =>
        rcases mem_cons.mp h with rfl | h
        · exact ⟨st', hturn⟩
        · split at h
          · simp at h
          · exact ih h

/-- What the loop leaves: the resources found by its turns, the errors counted, and whether
the last turn found a resource. -/
theorem requestLoop_spec {c} (h : requestLoop c is st = some st') :
    (∃ pick, st'.req = fillReq pick st.req ∧
      (∀ i, (pick i).isSome = true ↔ ∃ t ∈ turns c is st, t.index = i ∧ t.ends = .found) ∧
      ∀ i rse, pick i = some rse → c.Finds i rse) ∧
      st'.errCnt = st.errCnt + (turns c is st).countP (fun t => t.ends = .failed) ∧
      st'.found = ((turns c is st).getLast?.elim st.found fun t => t.ends = .found) := by
  induction is generalizing st with
  | nil =>
    rw [requestLoop, some.injEq] at h
    subst h
    exact ⟨⟨fun _ => none, (fillReq_none _).symm, by simp [turns], by simp⟩, by simp [turns], rfl⟩
  | cons i is ih =>
    rw [requestLoop] at h
    split at h
    · simp at h
    · next st₁ e hturn =>
        have hspec := turn_spec hturn
        simp only [turns, hturn]
        split at h
        · next hstop =>
            cases h
            have hkept := hspec.kept (by simp [hstop.1])
            refine ⟨⟨fun _ => none, ?_, ?_, by simp⟩, ?_, ?_⟩
            · rw [fillReq_none, hkept]
            · simp [hstop]
            · simp [hspec.errCnt, hstop]
            · simp [hspec.found, hstop]
        · next hgo =>
            obtain ⟨⟨pick, hreq, hpick, hfinds⟩, herr, hfound⟩ := ih h
            rw [if_neg hgo]
            refine ⟨?_, ?_, ?_⟩
            · by_cases he : e = .found
              · obtain ⟨rse, hrse, hgiven⟩ := hspec.given he
                refine ⟨fun j => (pick j).or (if j = i then some rse else none), ?_, ?_, ?_⟩
                · rw [hreq, hgiven, fillReq_assign]
                · intro j
                  by_cases hj : j = i
                  · simp [hj, he]
                  · simp [hj, hpick, Ne.symm hj]
                · intro j rse' hj
                  rcases or_eq_some_iff.mp hj with hj | ⟨_, hj⟩
                  · exact hfinds j rse' hj
                  · obtain ⟨hji, hrse'⟩ := ite_none_right_eq_some.mp hj
                    rw [hji, ← some.inj hrse']
                    exact hrse
              · refine ⟨pick, by rw [hreq, hspec.kept he], fun j => ?_, hfinds⟩
                simp [hpick, he]
            · rw [herr, hspec.errCnt, countP_cons]
              by_cases he : e = .failed
              · simp [he]
                omega
              · simp [he]
            · rw [hfound, List.getLast?_cons]
              cases (turns c is st₁).getLast? with
              | none => simp [hspec.found]
              | some t => rfl

/-- After a success every entry has an allocation and a resource, entries of one index the
same resource; after a failure no entry has any. -/
structure Reply.AllOrNothing (r : Reply) : Prop where
  filled : r.ok = true → ∀ k ∈ r.req, k.gop.isSome = true ∧ k.ridKey.isSome = true
  same : r.ok = true → ∀ k ∈ r.req, ∀ k' ∈ r.req, k.ridIndex = k'.ridIndex → k.ridKey = k'.ridKey
  cleared : r.ok = false → ∀ k ∈ r.req, k.gop = none ∧ k.ridKey = none

/-- An index is not passed over: the resource of its hint is in the table, it has a query, and
no list to pick from. -/
structure Call.Served (c : Call) (i : Nat) : Prop where
  hinted : ∀ key, c.fixedKey i = some key → c.slotOf key ≠ none
  asked : ¬c.emptyQuery i
  free : c.pickFrom i = none

theorem Call.Served.rids_eq_nil (h : c.Served i) (hskip : c.Skips i st) : c.rids = [] := by
  rcases hskip.2.2 with ⟨key, hkey, hnone⟩ | hempty | hpick
  · exact absurd hnone (h.hinted key hkey)
  · exact absurd hempty h.asked
  · refine eq_nil_iff_forall_not_mem.mpr fun rse hrse => ?_
    simpa [h.free, pickTest] using hpick rse hrse

/-- A loop that ends with a resource has made all its turns, and only fixed indices were left
without one. -/
theorem requestLoop_found {c} (hwhole : c.partialOk = false) (h : requestLoop c is st = some st')
    (hfound : st'.found = true) :
    (turns c is st).map Turn.index = is ∧
      ∀ t ∈ turns c is st, t.ends = .missed → t.index < c.fixedSize := by
  induction is generalizing st with
  | nil => exact ⟨rfl, fun t ht => absurd ht (by simp [turns])⟩
  | cons i is ih =>
    rw [requestLoop] at h
    split at h
    · simp at h
    · next st₁ e hturn =>
        simp only [turns, hturn]
        split at h
        · next hstop =>
            cases h
            rw [(turn_spec hturn).found, hstop.1] at hfound
            exact absurd hfound (by decide)
        · next hgo =>
            obtain ⟨hmap, hmissed⟩ := ih h
            rw [if_neg hgo]
            refine ⟨by rw [map_cons, hmap], ?_⟩
            intro t ht he
            rcases mem_cons.mp ht with rfl | ht
            · exact not_le.mp fun hle => hgo ⟨he, hle, hwhole⟩
            · exact hmissed t ht he

theorem mem_fillReq_clear {pick req k} (h : k ∈ fillReq pick (clearReq req)) :
    (∃ k₀ ∈ req, k₀.ridIndex = k.ridIndex) ∧ k.ridKey = (pick k.ridIndex).map RidEntry.ridKey ∧
      (k.gop.isSome = true ↔ (pick k.ridIndex).isSome = true) := by
  simp only [fillReq, clearReq, map_map, mem_map, Function.comp] at h
  obtain ⟨k₀, hk₀, rfl⟩ := h
  cases hp : pick k₀.ridIndex <;> simp [hp, RsRequest.fill] <;> exact ⟨k₀, hk₀, rfl⟩

theorem cleared_clearReq (req : List RsRequest) :
    ∀ k ∈ clearReq req, k.gop = none ∧ k.ridKey = none := by
  intro k hk
  obtain ⟨k₀, _, rfl⟩ := mem_map.mp hk
  exact ⟨rfl, rfl⟩

variable {req : List RsRequest} {hintStatus : Nat → Option RsError} {r : Reply}

/-- A reply is a failure with cleared entries, or has the entries of a loop that found a
resource last, if that is asked for, and counted no error. -/
theorem rsSimpleRequest_cases (h : rsSimpleRequest c req hintStatus changes = some r) :
    (r.ok = false ∧ ∀ k ∈ r.req, k.gop = none ∧ k.ridKey = none) ∨
    (r.ok = true ∧ ∃ st,
      requestLoop c (List.range c.nRid) (requestStart c req hintStatus changes) = some st ∧
        (st.found || c.partialOk) = true ∧ st.errCnt = 0 ∧ r.req = st.req) := by
  rw [rsSimpleRequest] at h
  split_ifs at h with href
  · split at h
    · simp at h
    · next st hloop =>
        split at h
        · next hfail =>
            cases h
            exact .inl ⟨rfl, cleared_clearReq st.req⟩
        · next hdone =>
            cases h
            simp only [not_or, Bool.not_eq_false, not_lt, Nat.le_zero_eq] at hdone
            exact .inr ⟨rfl, st, hloop, hdone.1, hdone.2, rfl⟩
  · cases h
    exact .inl ⟨rfl, cleared_clearReq req⟩

/-- In a loop that found a resource last and counted no error each turn found a resource or was
passed over. -/
theorem requestLoop_through (hignore : c.ignoreFixedErr = false) (hwhole : c.partialOk = false)
    (hloop : requestLoop c is st = some st') (hfound : st'.found = true) (herr : st'.errCnt = 0) :
    ∀ t ∈ turns c is st, t.ends = .found ∨ c.Skips t.index t.before := by
  intro t ht
  obtain ⟨_, hturn⟩ := mem_turns ht
  cases he : t.ends with
  | found => exact .inl rfl
  | missed =>
    have hfixed := (requestLoop_found hwhole hloop hfound).2 t ht he
    exact .inr ((turn_missed_iff hturn hfixed hignore).mp he)
  | failed =>
    have hpos : 0 < (turns c is st).countP (fun t => t.ends = .failed) :=
      countP_pos_iff.mpr ⟨t, ht, by simpa using he⟩
    have hcount := (requestLoop_spec hloop).2.1
    omega

/-- A test that every resource with an attribute passes. -/
def anyAttr : QueryEle :=
  ⟨.kv, none, ⟨.any, false, false⟩, none, ⟨.any, false, false⟩⟩

/-- A resource whose key and only attribute is the given one. -/
def oneAttr (key value : CStr) : RidEntry :=
  ⟨value, value, [(key, value)], .up, false, List.pairwise_singleton _ _⟩

/-- A call for one index without hints. -/
def plainCall : Call :=
  ⟨[oneAttr [1] [7]], by decide, [anyAttr], none, 0, 1, false, false, true, fun _ _ => 0⟩

/-- A call for two indices, of which the first one is fixed by its hint. -/
def hintedCall (query : List QueryEle) (first second : Hints) : Call :=
  { plainCall with
    query := query
    hints := some fun i => if i = 0 then first else second
    fixedSize := 1
    nRid := 2 }

end LStore.Rs
