import LStore.Toolbox.IntervalInsert

/-!
# Removing an interval

`tbx_isl_remove` takes the data off every edge between the end points, takes the interval
off the lists, and unlinks an end point at which nothing is listed any more. Unlinking a
node drops the labels of the edges that leave it and lets the edges that lead to it run
on with theirs: a chain across the node survives when its edges into and out of the node
come to lead to the same place.
-/

namespace LStore.Toolbox

open Links Paths List

variable {κ δ : Type*} [LinearOrder κ] [DecidableEq δ]

variable {sl : TbxSl κ Unit} {l a b : List (Entry κ)} {e f : Entry κ} {hi : κ} {data : δ}

omit [LinearOrder κ] in
theorem removeIslData_fst (list : List δ) (data : δ) :
    (removeIslData list data).1 = list.erase data := by
  rw [removeIslData]
  split_ifs with h
  · rfl
  · exact (erase_of_not_mem h).symm

omit [LinearOrder κ] in
theorem removeIslData_snd {list : List δ} {data} (h : data ∈ list) :
    (removeIslData list data).2 = 0 := by
  rw [removeIslData, if_pos h]

/-- The loop over the levels takes the data off every edge not behind `hi`. -/
theorem untagLevels_apply (nodes : Nat → SlNode κ Unit) (hi : κ) (data : δ) (sn n : Nat)
    (edge : Nat → List δ) (i : Nat) :
    untagLevels nodes hi data sn n edge i =
      if i < n ∧ reaches nodes hi sn i = true then (edge i).erase data else edge i := by
  induction n generalizing edge with
  | zero => simp [untagLevels]
  | succ n ih =>
    rw [untagLevels, ih]
    by_cases hn : i = n
    · subst hn
      by_cases hreach : reaches nodes hi sn i = true
      · simp [hreach, removeIslData_fst]
      · simp [hreach]
    · have hlt : i < n + 1 ↔ i < n := by omega
      by_cases hreach : reaches nodes hi sn n = true
      · simp [hreach, hlt, hn]
      · simp [hreach, hlt]

/-- An edge that leads not behind `hi` starts in front of it. -/
theorem Wf.lt_of_reaches (h : Wf sl l) (he : e ∈ l) {i} (hi' : i ≤ e.level)
    (hreach : reaches sl.nodes hi e.addr i = true) : e.key < hi := by
  obtain ⟨f, hf, hedge, hle⟩ := (h.reaches_iff he hi').mp hreach
  obtain ⟨g, hg, haddr, _, hlt⟩ := h.edge_target he hedge
  rw [h.eq_of_addr hg hf haddr] at hlt
  exact hlt.trans_le hle

/-- The walk of a removal takes the data off the edges between the end points. -/
theorem Wf.untagWalk (h : Wf sl (a ++ e :: b)) (hf : f ∈ e :: b) (data : δ) {fuel}
    (hfuel : b.length < fuel) (isln : Nat → IslNode δ) :
    ∃ isln', untagWalk sl.nodes f.key data fuel e.addr isln = (isln', f.addr) ∧
      (∀ x, (isln' x).start = (isln x).start ∧ (isln' x).point = (isln x).point ∧
        (isln' x).nEnd = (isln x).nEnd) ∧
      ∀ g ∈ a ++ e :: b, ∀ i ≤ g.level, (isln' g.addr).edge i =
        if e.key ≤ g.key ∧ reaches sl.nodes f.key g.addr i = true then
          ((isln g.addr).edge i).erase data
        else (isln g.addr).edge i := by
  induction fuel generalizing a e b isln with
  | zero => omega
  | succ fuel ih =>
    have he : e ∈ a ++ e :: b := by simp
    have hcmp := h.cmp_node he fun k => compare k f.key
    rcases mem_cons.mp hf with rfl | hfb
    · -- at the upper end no edge is left
      refine ⟨isln, ?_, fun x => ⟨rfl, rfl, rfl⟩, fun g hg i hi => ?_⟩
      · rw [Toolbox.untagWalk, hcmp, compare_eq_iff_eq.mpr rfl]
      · rw [if_neg]
        rintro ⟨hle, hreach⟩
        exact absurd (h.lt_of_reaches hg hi hreach) (not_lt.mpr hle)
    · have hlt : e.key < f.key := h.lt_behind hfb
      cases b with
      | nil => simp at hfb
      | cons g b =>
        have hnext : (sl.nodes e.addr).next 0 = some g.addr := by
          have hedge := h.edgeNext_at (Nat.zero_le e.level)
          exact hedge
        have h' : Wf sl ((a ++ [e]) ++ g :: b) := by simpa using h
        obtain ⟨isln₁, hisln₁⟩ : ∃ i, i = Function.update isln e.addr
            ((isln e.addr).withEdge (untagLevels sl.nodes f.key data e.addr
              ((sl.nodes e.addr).level + 1) (isln e.addr).edge)) := ⟨_, rfl⟩
        obtain ⟨isln', hwalk, hlists, hedges⟩ :=
          ih h' hfb (by simpa using hfuel) isln₁
        refine ⟨isln', ?_, fun x => ?_, fun k hk i hi => ?_⟩
        · rw [Toolbox.untagWalk, hcmp, compare_lt_iff_lt.mpr hlt]
          simp only [hnext]
          rw [← hwalk, hisln₁]
        · obtain ⟨hstart, hpoint, hnEnd⟩ := hlists x
          rw [hstart, hpoint, hnEnd, hisln₁, Function.update_apply]
          split_ifs with hx
          · rw [hx]
            exact ⟨rfl, rfl, rfl⟩
          · exact ⟨rfl, rfl, rfl⟩
        · rw [hedges k (by simpa using hk) i hi, hisln₁]
          by_cases hke : k = e
          · subst hke
            have hback : ¬g.key ≤ k.key := not_le.mpr (h.lt_behind (by simp))
            have hlevel := (h.node k he).2
            simp [hback, IslNode.withEdge, untagLevels_apply, hlevel, Nat.lt_succ_of_le hi]
          · have haddr : k.addr ≠ e.addr := fun heq => hke (h.eq_of_addr hk he heq)
            have hiff : g.key ≤ k.key ↔ e.key ≤ k.key := by
              rcases mem_append.mp hk with hka | hkb
              · have hlow := h.front_lt hka
                have hgk : k.key < g.key := hlow.trans (h.lt_behind (by simp))
                exact ⟨fun hle => absurd hgk (not_lt.mpr hle),
                  fun hle => absurd hlow (not_lt.mpr hle)⟩
              · have hkb' : k ∈ g :: b := by
                  rcases mem_cons.mp hkb with heq | hkb
                  · exact absurd heq hke
                  · exact hkb
                refine ⟨fun _ => (h.lt_behind hkb').le, fun _ => ?_⟩
                rcases mem_cons.mp hkb' with rfl | hkb
                · exact le_rfl
                · exact (h'.lt_behind hkb).le
            simp [hiff, Function.update_of_ne haddr]

variable {isl isl' : TbxIsl κ δ} {chains rest : List (Labelled κ δ)}
variable {stored : List (Interval κ δ)} {I : Interval κ δ} {c : Labelled κ δ}

/-- Taking the data of one chain off the edges between its ends, where no other chain has the
same data. -/
theorem Chained.untag (h : Chained isl l chains) (hperm : chains.Perm (c :: rest))
    (hapart : ∀ d ∈ rest, d.1.data = c.1.data → d.1.hi ≤ c.1.lo ∨ c.1.hi ≤ d.1.lo)
    (hsl : isl'.sl = isl.sl)
    (hedge : ∀ g ∈ l, ∀ i ≤ g.level, (isl'.isln g.addr).edge i =
      if c.1.lo ≤ g.key ∧ reaches isl.sl.nodes c.1.hi g.addr i = true then
        ((isl.isln g.addr).edge i).erase c.1.data
      else (isl.isln g.addr).edge i) : Chained isl' l rest where
  wf := hsl ▸ h.wf
  data := hsl ▸ h.data
  head_data := hsl ▸ h.head_data
  path := fun d hd => by
    rw [hsl]
    exact h.path d (hperm.mem_iff.mpr (mem_cons_of_mem c hd))
  label := fun g hg i hi => by
    have hold := (h.label g hg i hi).trans (labelsOf_perm hperm _)
    rw [labelsOf_cons] at hold
    rw [hedge g hg i hi]
    by_cases hmem : (g.addr, i) ∈ c.2
    · -- an edge of the chain is between its ends
      obtain ⟨_, t, ht, hto, _, hlo, hhi⟩ :=
        h.edge_between (hperm.mem_iff.mpr (by simp)) hg hmem
      rw [if_pos hmem] at hold
      rw [if_pos ⟨hlo, (h.wf.reaches_iff hg hi).mpr ⟨t, ht, hto, hhi⟩⟩]
      have herase := hold.erase c.1.data
      rw [erase_cons_head] at herase
      exact herase
    · rw [if_neg hmem] at hold
      split_ifs with hin
      · -- another edge between the ends does not carry the data
        obtain ⟨hlo, hreach⟩ := hin
        have hnot : c.1.data ∉ (isl.isln g.addr).edge i := by
          intro hdata
          obtain ⟨d, hd, heq⟩ := mem_map.mp (hold.mem_iff.mp hdata)
          obtain ⟨hd, hx⟩ := mem_filter.mp hd
          obtain ⟨_, t, ht, hto, hlt, hdlo, hdhi⟩ :=
            h.edge_between (hperm.mem_iff.mpr (mem_cons_of_mem c hd)) hg
              (by simpa using hx)
          obtain ⟨t', ht', hto', hle⟩ := (h.wf.reaches_iff hg hi).mp hreach
          have htt : t.addr = t'.addr := Option.some.inj (hto.symm.trans hto')
          rw [← h.wf.eq_of_addr ht ht' htt] at hle
          rcases hapart d hd heq with hbelow | habove
          · exact absurd (hlt.trans_le (hdhi.trans (hbelow.trans hlo))) (lt_irrefl _)
          · exact absurd (hlt.trans_le (hle.trans (habove.trans hdlo))) (lt_irrefl _)
        rw [erase_of_not_mem hnot]
        exact hold
      · exact hold

omit [DecidableEq δ] in
theorem Listed.perm {stored'} (h : Listed isl l stored) (hperm : stored.Perm stored') :
    Listed isl l stored' where
  start := fun e he => (h.start e he).trans ((hperm.filter _).map _)
  point := fun e he => (h.point e he).trans ((hperm.filter _).map _)
  nEnd := fun e he => by rw [h.nEnd e he, hperm.countP_eq]
  ends := fun J hJ => h.ends J (hperm.mem_iff.mpr hJ)

omit [LinearOrder κ] in
theorem perm_uncons {p : Interval κ δ → Bool} {q} [Decidable q] {xs : List δ}
    (hold : xs.Perm (((I :: stored).filter p).map Interval.data)) (hq : p I = true ↔ q) :
    (if q then xs.erase I.data else xs).Perm ((stored.filter p).map Interval.data) := by
  by_cases hI : q
  · rw [filter_cons_of_pos (hq.mpr hI), map_cons] at hold
    have herase := hold.erase I.data
    rw [erase_cons_head] at herase
    rwa [if_pos hI]
  · rw [filter_cons_of_neg (mt hq.mp hI)] at hold
    rwa [if_neg hI]

/-- One interval less in the lists of its end points. -/
theorem Listed.uncons (h : Listed isl l (I :: stored))
    (hstart : ∀ e ∈ l, (isl'.isln e.addr).start =
      if I.lo < I.hi ∧ I.lo = e.key then (isl.isln e.addr).start.erase I.data
      else (isl.isln e.addr).start)
    (hpoint : ∀ e ∈ l, (isl'.isln e.addr).point =
      if I.lo = I.hi ∧ I.lo = e.key then (isl.isln e.addr).point.erase I.data
      else (isl.isln e.addr).point)
    (hnEnd : ∀ e ∈ l, (isl'.isln e.addr).nEnd =
      (isl.isln e.addr).nEnd - if I.lo < I.hi ∧ I.hi = e.key then 1 else 0) :
    Listed isl' l stored where
  start := fun e he => by
    have hold := h.start e he
    rw [hstart e he]
    exact perm_uncons hold (by simp)
  point := fun e he => by
    have hold := h.point e he
    rw [hpoint e he]
    exact perm_uncons hold (by simp)
  nEnd := fun e he => by
    have hold := h.nEnd e he
    rw [countP_cons] at hold
    simp only [hnEnd e he, hold, decide_eq_true_eq]
    split_ifs <;> omega
  ends := fun J hJ => h.ends J (mem_cons_of_mem I hJ)

omit [DecidableEq δ] in
/-- A node lists nothing when no stored interval ends there. -/
theorem Listed.isEmpty_iff (h : Listed isl l stored) (he : e ∈ l) :
    islNodeIsEmpty (isl.isln e.addr) = true ↔ ∀ J ∈ stored, J.lo ≠ e.key ∧ J.hi ≠ e.key := by
  have hnEnd : (isl.isln e.addr).nEnd ≤ 0 ↔ ∀ J ∈ stored, ¬(J.lo < J.hi ∧ J.hi = e.key) := by
    rw [h.nEnd e he]
    constructor
    · intro hle J hJ hend
      have hpos : 0 < stored.countP fun I => I.lo < I.hi ∧ I.hi = e.key :=
        countP_pos_iff.mpr ⟨J, hJ, by simpa using hend⟩
      omega
    · intro hnone
      rw [countP_eq_zero.mpr fun J hJ => by simpa using hnone J hJ]
      rfl
  rw [islNodeIsEmpty, Bool.and_eq_true, Bool.and_eq_true, List.isEmpty_iff, List.isEmpty_iff,
    decide_eq_true_eq, h.start_eq_nil he, h.point_eq_nil he, hnEnd]
  constructor
  · rintro ⟨⟨hpt, hst⟩, hen⟩ J hJ
    have hle := (h.ends J hJ).1
    rcases eq_or_lt_of_le hle with heq | hlt
    · have hlo : J.lo ≠ e.key := fun hk => hpt J hJ ⟨heq, hk⟩
      exact ⟨hlo, heq ▸ hlo⟩
    · exact ⟨fun hk => hst J hJ ⟨hlt, hk⟩, fun hk => hen J hJ ⟨hlt, hk⟩⟩
  · intro hnone
    exact ⟨⟨fun J hJ hk => (hnone J hJ).1 hk.2, fun J hJ hk => (hnone J hJ).1 hk.2⟩,
      fun J hJ hk => (hnone J hJ).2 hk.2⟩

/-- Where an edge leads once the node `gone` is unlinked. -/
def past (sl : TbxSl κ Unit) (gone : Option Nat) (a i : Nat) : Option Nat :=
  match edgeNext sl a i with
  | none => none
  | some c => if gone = some c then edgeNext sl c i else some c

omit [LinearOrder κ] in
theorem past_none (sl : TbxSl κ Unit) (a i : Nat) : past sl none a i = edgeNext sl a i := by
  rw [past]
  cases edgeNext sl a i <;> simp

omit [DecidableEq δ] in
/-- `tbx_sl_remove` of an end point leaves the other nodes and lets edges run past it. -/
theorem Wf.tbxSlRemove_none {sl} (h : Wf sl (a ++ e :: b)) :
    Wf (tbxSlRemove sl e.key none).1 (a ++ b) ∧
      (∀ x, ((tbxSlRemove sl e.key none).1.nodes x).data = (sl.nodes x).data) ∧
      ∀ g ∈ a ++ b, ∀ i, edgeNext (tbxSlRemove sl e.key none).1 g.addr i =
        past sl (some e.addr) g.addr i := by
  obtain ⟨hfind, hnext⟩ := h.findKey_entry
  obtain ⟨sl', hsl'⟩ : ∃ s, s = { sl with
      nEle := sl.nEle - ((sl.nodes e.addr).dups.length + 1) } := ⟨_, rfl⟩
  have hgo : (tbxSlRemove sl e.key none).1 = Toolbox.unlinkNode sl' (predAt a) e.addr := by
    rw [tbxSlRemove, hfind, hsl']
    simp [hnext]
  have h' : Wf sl' (a ++ e :: b) := by
    rw [hsl']
    exact h.congr (fun _ => ⟨rfl, rfl, rfl⟩) rfl rfl rfl
  have hnodes : ∀ x, (Toolbox.unlinkNode sl' (predAt a) e.addr).nodes x =
      (sl.nodes x).withNext fun i =>
        if i ≤ e.level ∧ x = predAt a i then (sl.nodes e.addr).next i
        else (sl.nodes x).next i := fun x => by
    rw [h'.unlinkNode_nodes, hsl']
  rw [hgo]
  refine ⟨h'.unlinkNode, fun x => ?_, fun g hg i => ?_⟩
  · rw [hnodes, withNext_data]
  · have he : e ∈ a ++ e :: b := by simp
    have hg' : g ∈ a ++ e :: b := mem_middle.mpr (.inr hg)
    have hnext' : edgeNext (Toolbox.unlinkNode sl' (predAt a) e.addr) g.addr i =
        if i ≤ g.level then
          if i ≤ e.level ∧ g.addr = predAt a i then (sl.nodes e.addr).next i
          else (sl.nodes g.addr).next i
        else none := by
      rw [edgeNext, hnodes, withNext_level, withNext_next, (h.node g hg').2]
    rw [hnext', past]
    by_cases hi : i ≤ g.level
    · rw [if_pos hi, h.edgeNext_eq hg' hi]
      by_cases hpred : i ≤ e.level ∧ g.addr = predAt a i
      · have hto : (sl.nodes g.addr).next i = some e.addr := by
          rw [hpred.2, h.next_predAt (h.level_lt he hpred.1), onLevel_cons_of_le hpred.1]
          rfl
        rw [if_pos hpred, hto]
        simp [h.edgeNext_eq he hpred.1]
      · rw [if_neg hpred]
        cases hc : (sl.nodes g.addr).next i with
        | none => rfl
        | some c =>
          have hne : e.addr ≠ c := by
            rintro rfl
            obtain ⟨hsrc, hle⟩ := h.edge_source hg' ((h.edgeNext_eq hg' hi).trans hc)
            exact hpred ⟨hle, hsrc⟩
          simp [hne]
    · have hnone : edgeNext sl g.addr i = none := by
        rw [edgeNext, (h.node g hg').2, if_neg hi]
      rw [if_neg hi, hnone]

omit [DecidableEq δ] in
/-- Unlinking a node at which no chain ends keeps the chains across it whose edges come to
lead to the same place. -/
theorem Chained.dropNode (h : Chained isl (a ++ e :: b) chains)
    (hends : ∀ c ∈ chains, c.1.lo ≠ e.key ∧ c.1.hi ≠ e.key)
    (hjoin : ∀ c ∈ chains, ∀ i j, (predAt a i, i) ∈ c.2 → i ≤ e.level → (e.addr, j) ∈ c.2 →
      edgeNext isl.sl e.addr i = edgeNext isl.sl e.addr j)
    (hsl : isl'.sl = (tbxSlRemove isl.sl e.key none).1) (hisln : isl'.isln = isl.isln) :
    Chained isl' (a ++ b) (chains.map fun c => (c.1, Paths.skip e.addr c.2)) := by
  obtain ⟨hwf, hdata, hedges⟩ := h.wf.tbxSlRemove_none
  rw [← hsl] at hwf hdata hedges
  have he : e ∈ a ++ e :: b := by simp
  have hmem : ∀ g, g ∈ a ++ b ↔ g ∈ a ++ e :: b ∧ g.addr ≠ e.addr := by
    refine fun g => ⟨fun hg => ⟨mem_middle.mpr (.inr hg), (h.wf.others g hg).2⟩, ?_⟩
    rintro ⟨hg, hne⟩
    exact (mem_middle.mp hg).resolve_left fun heq => hne (heq ▸ rfl)
  refine ⟨hwf, fun g hg => ?_, ?_, fun c' hc' => ?_, fun g hg i hi => ?_⟩
  · rw [hdata]
    exact h.data g ((hmem g).mp hg).1
  · rw [hdata]
    exact h.head_data
  · obtain ⟨c, hc, rfl⟩ := mem_map.mp hc'
    obtain ⟨s, hs, t, ht, hlo, hhi, hp⟩ := h.path c hc
    have hends' := hends c hc
    have hse : s.addr ≠ e.addr := fun heq =>
      hends'.1 (by rw [← hlo, h.wf.eq_of_addr hs he heq])
    have hte : t.addr ≠ e.addr := fun heq =>
      hends'.2 (by rw [← hhi, h.wf.eq_of_addr ht he heq])
    refine ⟨s, (hmem s).mpr ⟨hs, hse⟩, t, (hmem t).mpr ⟨ht, hte⟩, hlo, hhi, ?_⟩
    refine hp.skip e.addr hse hte ?_ ?_ ?_
    · intro j hj
      obtain ⟨f, hf, haddr, _, hlt⟩ := h.wf.edge_target he hj
      rw [h.wf.eq_of_addr hf he haddr] at hlt
      exact lt_irrefl _ hlt
    · intro x hx hto j hj
      obtain ⟨g, hg, haddr, _⟩ := h.sources hc x hx
      rw [← haddr] at hto ⊢
      obtain ⟨hsrc, hle⟩ := h.wf.edge_source hg hto
      have hge : g.addr ≠ e.addr := by
        rw [hsrc]
        exact h.wf.predAt_ne x.2
      have hx' : (predAt a x.2, x.2) ∈ c.2 := by
        rw [← hsrc, haddr]
        exact hx
      rw [hedges g ((hmem g).mpr ⟨hg, hge⟩), past, hto, ← hjoin c hc x.2 j hx' hle hj]
      simp
    · intro x hx hxe hto
      obtain ⟨g, hg, haddr, _⟩ := h.sources hc x hx
      rw [← haddr] at hxe hto ⊢
      rw [hedges g ((hmem g).mpr ⟨hg, hxe⟩), past]
      cases hd : edgeNext isl.sl g.addr x.2 with
      | none => rfl
      | some d =>
        have hne : e.addr ≠ d := fun heq => hto (by rw [hd, heq])
        simp [hne]
  · obtain ⟨hg', hne⟩ := (hmem g).mp hg
    rw [hisln]
    have hlabels : labelsOf (chains.map fun c => (c.1, Paths.skip e.addr c.2)) (g.addr, i) =
        labelsOf chains (g.addr, i) := by
      refine labelsOf_map fun c _ => ?_
      rw [mem_skip]
      exact ⟨fun hx => hx.1, fun hx => ⟨hx, hne⟩⟩
    rw [hlabels]
    exact h.label g hg' i hi

end LStore.Toolbox
