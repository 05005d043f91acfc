import LStore.Toolbox.IntervalLabels

/-!
# Inserting an interval

`tbx_isl_insert` makes the end points, lists the interval where it starts and labels the
highest edges on the way to its upper end. The walk lays a chain, and the interval list
represents one more interval.
-/

namespace LStore.Toolbox

open Paths List Function

variable {κ δ : Type*} [LinearOrder κ]

/-- A field that an update keeps. -/
theorem update_field {β γ : Type*} {g g' : Nat → β} {a v} (hg : g' = update g a v) (f : β → γ)
    (h : f v = f (g a)) (x : Nat) : f (g' x) = f (g x) := by
  rw [hg, update_apply]
  split_ifs with hx
  · rw [hx, h]
  · rfl

section

variable {sl : TbxSl κ Unit} {l a b : List (Entry κ)} {e f : Entry κ} {hi : κ} {i n : Nat}

/-- An edge that `reaches` leads to an entry not behind `hi`. -/
theorem Wf.reaches_iff (h : Wf sl l) (he : e ∈ l) (hlevel : i ≤ e.level) :
    reaches sl.nodes hi e.addr i = true ↔
      ∃ f ∈ l, edgeNext sl e.addr i = some f.addr ∧ f.key ≤ hi := by
  have hnext := h.edgeNext_eq he hlevel
  have hcmp : ∀ f ∈ l, ((sl.nodes f.addr).cmp (fun k => compare k hi) != .gt) = true ↔
      f.key ≤ hi := by
    intro f hf
    rw [h.cmp_node hf, bne_iff_ne, Ne, compare_gt_iff_gt]
    exact not_lt
  constructor
  · intro hreach
    rw [reaches] at hreach
    cases hc : (sl.nodes e.addr).next i with
    | none => simp [hc] at hreach
    | some c =>
      obtain ⟨f, hf, rfl, _, _⟩ := h.edge_target he (hnext.trans hc)
      simp only [hc] at hreach
      exact ⟨f, hf, hnext.trans hc, (hcmp f hf).mp hreach⟩
  · rintro ⟨f, hf, hedge, hle⟩
    rw [reaches, ← hnext, hedge]
    exact (hcmp f hf).mpr hle

theorem highestEdge_spec {nodes sn} (h : ∃ i < n, reaches nodes hi sn i = true) :
    ∃ j < n, highestEdge nodes hi sn n = some j ∧ reaches nodes hi sn j = true := by
  induction n with
  | zero =>
    omega
  | succ n ih =>
    by_cases hn : reaches nodes hi sn n = true
    · exact ⟨n, by omega, by rw [highestEdge, if_pos hn], hn⟩
    · obtain ⟨i, hlt, hi⟩ := h
      have hne : i ≠ n := by
        rintro rfl
        exact hn hi
      obtain ⟨j, hj, heq, hreach⟩ := ih ⟨i, by omega, hi⟩
      exact ⟨j, by omega, by rw [highestEdge, if_neg hn, heq], hreach⟩

/-- One step of the walk: an edge to an entry behind the node and not behind the end. -/
theorem Wf.highestEdge (h : Wf sl (a ++ e :: b)) (hf : f ∈ b) :
    ∃ j b₁ g b₂, highestEdge sl.nodes f.key e.addr ((sl.nodes e.addr).level + 1) = some j ∧
      edgeNext sl e.addr j = some g.addr ∧ (sl.nodes e.addr).next j = some g.addr ∧
      b = b₁ ++ g :: b₂ ∧ f ∈ g :: b₂ := by
  have he : e ∈ a ++ e :: b := by simp
  have hsorted := (pairwise_cons.mp (pairwise_append.mp h.sorted).2.1).2
  have hlevel := (h.node e he).2
  have hzero : reaches sl.nodes f.key e.addr 0 = true := by
    rw [h.reaches_iff he (Nat.zero_le _), h.edgeNext_at (Nat.zero_le _), onLevel_zero]
    cases b with
    | nil => simp at hf
    | cons g b =>
      refine ⟨g, by simp, rfl, ?_⟩
      rcases mem_cons.mp hf with rfl | hf
      · exact le_rfl
      · exact ((pairwise_cons.mp hsorted).1 f hf).le
  obtain ⟨j, hj, hhigh, hreach⟩ := highestEdge_spec
    (show ∃ i < (sl.nodes e.addr).level + 1, _ from ⟨0, Nat.succ_pos _, hzero⟩)
  have hjl : j ≤ e.level := by omega
  obtain ⟨g, hg, hedge, hle⟩ := (h.reaches_iff he hjl).mp hreach
  have hgb : g ∈ b := by
    have hhead := hedge
    rw [h.edgeNext_at hjl] at hhead
    obtain ⟨g', hg', _, haddr⟩ := mem_onLevel.mp (mem_of_mem_head? hhead)
    rw [← h.eq_of_addr (by simp [hg']) hg haddr]
    exact hg'
  obtain ⟨b₁, b₂, rfl⟩ := append_of_mem hgb
  refine ⟨j, b₁, g, b₂, hhigh, hedge, (h.edgeNext_eq he hjl).symm.trans hedge, rfl, ?_⟩
  rcases mem_append.mp hf with hf | hf
  · exact absurd ((pairwise_append.mp hsorted).2.2 f hf g (by simp)) (not_lt.mpr hle)
  · exact hf

/-- The walk of an insertion lays a chain to the upper end. -/
theorem Wf.labelWalk (h : Wf sl (a ++ e :: b)) (hf : f ∈ e :: b) (data : δ) {fuel}
    (hfuel : b.length < fuel) (isln : Nat → IslNode δ) :
    ∃ p, Path (edgeNext sl) e.addr p f.addr ∧ (∀ x ∈ p, ∃ g ∈ e :: b, g.addr = x.1) ∧
      ∀ x, labelWalk sl.nodes f.key f.addr data fuel e.addr isln x =
        (isln x).withEdge fun i =>
          if (x, i) ∈ p then data :: (isln x).edge i else (isln x).edge i := by
  induction fuel generalizing a e b isln with
  | zero => omega
  | succ fuel ih =>
    by_cases hend : e.addr = f.addr
    · refine ⟨[], hend, by simp, fun x => ?_⟩
      rw [Toolbox.labelWalk, if_pos hend]
      rfl
    · have hfb : f ∈ b := by
        rcases mem_cons.mp hf with rfl | hf
        · exact absurd rfl hend
        · exact hf
      obtain ⟨j, b₁, g, b₂, hhigh, hedge, hnext, rfl, hfg⟩ := h.highestEdge hfb
      have h' : Wf sl ((a ++ e :: b₁) ++ g :: b₂) := by simpa using h
      have hlen : b₂.length < fuel := by
        rw [length_append, length_cons] at hfuel
        omega
      obtain ⟨isln', hisln'⟩ : ∃ isln', isln' = update isln e.addr
          ((isln e.addr).withEdge (update (isln e.addr).edge j
            (data :: (isln e.addr).edge j))) := ⟨_, rfl⟩
      obtain ⟨p, hp, hsrc, hwalk⟩ := ih h' hfg hlen isln'
      have hnew : ∀ i, (e.addr, i) ∉ p := by
        intro i hx
        obtain ⟨g', hg', haddr⟩ := hsrc _ hx
        have hbehind := (pairwise_append.mp h'.sorted).2.2 e (by simp) g' hg'
        have heq := h'.eq_of_addr (show g' ∈ (a ++ e :: b₁) ++ g :: b₂ by
          simp only [mem_append]; exact .inr hg') (show e ∈ (a ++ e :: b₁) ++ g :: b₂ by
            simp) haddr
        rw [heq] at hbehind
        exact absurd hbehind (lt_irrefl _)
      refine ⟨(e.addr, j) :: p, ⟨rfl, g.addr, hedge, hp⟩, ?_, fun x => ?_⟩
      · intro x hx
        rcases mem_cons.mp hx with rfl | hx
        · exact ⟨e, by simp, rfl⟩
        · obtain ⟨g', hg', haddr⟩ := hsrc x hx
          refine ⟨g', ?_, haddr⟩
          simp only [mem_cons, mem_append] at hg' ⊢
          tauto
      · rw [Toolbox.labelWalk, if_neg hend, hhigh]
        simp only [hnext]
        have hwalk' := hwalk x
        rw [hisln'] at hwalk'
        refine hwalk'.trans ?_
        by_cases hx : x = e.addr
        · subst hx
          simp only [update_self, hnew, if_false, IslNode.withEdge, mem_cons,
            Prod.mk.injEq, true_and, or_false]
          congr 1
          funext i
          rw [update_apply]
          split_ifs with hi
          · rw [hi]
          · rfl
        · simp [hx]

end

section

variable {isl isl' : TbxIsl κ δ} {l : List (Entry κ)} {chains : List (Labelled κ δ)}
variable {stored : List (Interval κ δ)} {I : Interval κ δ} {lo hi : κ}

/-- The interval list, with its entries and chains, holds the stored intervals. -/
structure Represents (isl : TbxIsl κ δ) (l : List (Entry κ)) (chains : List (Labelled κ δ))
    (stored : List (Interval κ δ)) : Prop where
  chained : Chained isl l chains
  listed : Listed isl l stored
  perm : (chains.map Prod.fst).Perm (stored.filter fun I => I.lo < I.hi)
  used : ∀ e ∈ l, ∃ I ∈ stored, I.lo = e.key ∨ I.hi = e.key
  count : isl.nIntervals = stored.length

/-- A new interval list holds nothing. -/
theorem represents_new {maxLevels} (hpos : 0 < maxLevels) :
    Represents (tbxIslNew maxLevels : TbxIsl κ δ) [] [] [] where
  chained := ⟨wf_new hpos true, by simp, rfl, by simp, by simp⟩
  listed := ⟨by simp, by simp, by simp, by simp⟩
  perm := List.Perm.refl _
  used := by simp
  count := rfl

theorem Chained.congr (h : Chained isl l chains) (hsl : isl'.sl = isl.sl)
    (hedge : ∀ x, (isl'.isln x).edge = (isl.isln x).edge) : Chained isl' l chains where
  wf := hsl ▸ h.wf
  data := hsl ▸ h.data
  head_data := hsl ▸ h.head_data
  path := hsl ▸ h.path
  label := fun e he i hi => by
    rw [hedge]
    exact h.label e he i hi

theorem Listed.congr (h : Listed isl l stored) (hisln : isl'.isln = isl.isln) :
    Listed isl' l stored where
  start := hisln ▸ h.start
  point := hisln ▸ h.point
  nEnd := hisln ▸ h.nEnd
  ends := h.ends

/-- One more interval in the lists of its end points. -/
theorem Listed.cons (h : Listed isl l stored)
    (hends : I.lo ≤ I.hi ∧ (∃ e ∈ l, e.key = I.lo) ∧ ∃ e ∈ l, e.key = I.hi)
    (hstart : ∀ e ∈ l, (isl'.isln e.addr).start =
      if I.lo < I.hi ∧ I.lo = e.key then I.data :: (isl.isln e.addr).start
      else (isl.isln e.addr).start)
    (hpoint : ∀ e ∈ l, (isl'.isln e.addr).point =
      if I.lo = I.hi ∧ I.lo = e.key then I.data :: (isl.isln e.addr).point
      else (isl.isln e.addr).point)
    (hnEnd : ∀ e ∈ l, (isl'.isln e.addr).nEnd =
      (isl.isln e.addr).nEnd + if I.lo < I.hi ∧ I.hi = e.key then 1 else 0) :
    Listed isl' l (I :: stored) where
  start := fun e he => by
    rw [hstart e he]
    split_ifs with hI
    · rw [filter_cons_of_pos (by simpa using hI)]
      exact (h.start e he).cons I.data
    · rw [filter_cons_of_neg (by simpa using hI)]
      exact h.start e he
  point := fun e he => by
    rw [hpoint e he]
    split_ifs with hI
    · rw [filter_cons_of_pos (by simpa using hI)]
      exact (h.point e he).cons I.data
    · rw [filter_cons_of_neg (by simpa using hI)]
      exact h.point e he
  nEnd := fun e he => by
    simp only [hnEnd e he, h.nEnd e he, countP_cons, decide_eq_true_eq]
    split_ifs <;> rfl
  ends := fun J hJ => by
    rcases mem_cons.mp hJ with rfl | hJ
    · exact hends
    · exact h.ends J hJ

theorem Wf.key_eq_iff {sl : TbxSl κ Unit} (h : Wf sl l) {e f} (he : e ∈ l) (hf : f ∈ l) :
    e.key = f.key ↔ f.addr = e.addr := by
  constructor
  · intro heq
    rw [h.eq_of_key he hf heq]
  · intro heq
    rw [h.eq_of_addr hf he heq]

/-- Listing a point. -/
theorem Represents.addPoint {e : Entry κ} {data} (hc : Chained isl l chains)
    (hl : Listed isl l stored)
    (hp : (chains.map Prod.fst).Perm (stored.filter fun I => I.lo < I.hi)) (he : e ∈ l)
    (hsl : isl'.sl = isl.sl)
    (hisln : isl'.isln = Function.update isl.isln e.addr ((isl.isln e.addr).withPoint (data ::
      (isl.isln e.addr).point))) :
    Chained isl' l chains ∧ Listed isl' l (⟨e.key, e.key, data⟩ :: stored) ∧
      (chains.map Prod.fst).Perm
        ((⟨e.key, e.key, data⟩ :: stored).filter fun I => I.lo < I.hi) := by
  refine ⟨hc.congr hsl fun x => ?_, hl.cons ⟨le_rfl, ⟨e, he, rfl⟩, e, he, rfl⟩ ?_ ?_ ?_, ?_⟩
  · rw [update_field hisln IslNode.edge rfl]
  · intro f hf
    simp [update_field hisln IslNode.start rfl]
  · intro f hf
    simp only [hisln, update_apply, true_and, hc.wf.key_eq_iff he hf]
    split_ifs with hx
    · rw [hx]
      rfl
    · rfl
  · intro f hf
    simp [update_field hisln IslNode.nEnd rfl]
  · rw [filter_cons_of_neg (by simp)]
    exact hp

omit [LinearOrder κ] in
theorem listEnds_apply (isln : Nat → IslNode δ) (sn snHi : Nat) (data : δ) (x : Nat) :
    (listEnds isln sn snHi data x).edge = (isln x).edge ∧
      (listEnds isln sn snHi data x).point = (isln x).point ∧
      (listEnds isln sn snHi data x).start =
        (if x = sn then data :: (isln x).start else (isln x).start) ∧
      (listEnds isln sn snHi data x).nEnd = (isln x).nEnd + if x = snHi then 1 else 0 := by
  simp only [listEnds, update_apply]
  by_cases hhi : x = snHi
  · subst hhi
    by_cases hlo : x = sn
    · subst hlo
      simp [IslNode.withEnd, IslNode.withStart, appendIslData]
    · simp [hlo, IslNode.withEnd]
  · by_cases hlo : x = sn
    · subst hlo
      simp [hhi, IslNode.withStart, appendIslData]
    · simp [hhi, hlo]

/-- Listing an interval where it starts and ends, and laying its chain. -/
theorem Represents.addInterval {e f : Entry κ} {data} (hc : Chained isl l chains)
    (hl : Listed isl l stored)
    (hp : (chains.map Prod.fst).Perm (stored.filter fun I => I.lo < I.hi)) (he : e ∈ l)
    (hf : f ∈ l) (hlt : e.key < f.key) (hsl : isl'.sl = isl.sl)
    (hwalk : isl'.isln = labelWalk isl.sl.nodes f.key f.addr data isl.sl.fresh e.addr (listEnds
      isl.isln e.addr f.addr data)) :
    ∃ p, Chained isl' l ((⟨e.key, f.key, data⟩, p) :: chains) ∧
      Listed isl' l (⟨e.key, f.key, data⟩ :: stored) ∧
      (((⟨e.key, f.key, data⟩, p) :: chains).map Prod.fst).Perm
        ((⟨e.key, f.key, data⟩ :: stored).filter fun I => I.lo < I.hi) := by
  obtain ⟨a, b, rfl⟩ := append_of_mem he
  have hfe : f ∈ e :: b := by
    rcases mem_append.mp hf with hfa | hfb
    · exact absurd (hc.wf.front_lt hfa) (not_lt.mpr hlt.le)
    · exact hfb
  have hfuel : b.length < isl.sl.fresh := Nat.lt_of_succ_lt hc.wf.length_behind
  obtain ⟨isln, hisln'⟩ : ∃ i, i = listEnds isl.isln e.addr f.addr data := ⟨_, rfl⟩
  have hisln := listEnds_apply isl.isln e.addr f.addr data
  rw [← hisln'] at hwalk hisln
  obtain ⟨p, hpath, _, hlabel⟩ := hc.wf.labelWalk hfe data hfuel isln
  have happly : ∀ x, isl'.isln x = (isln x).withEdge fun i =>
      if (x, i) ∈ p then data :: (isln x).edge i else (isln x).edge i := fun x => by
    rw [hwalk]
    exact hlabel x
  refine ⟨p, ⟨hsl ▸ hc.wf, hsl ▸ hc.data, hsl ▸ hc.head_data, ?_, ?_⟩,
    hl.cons ⟨hlt.le, ⟨e, he, rfl⟩, f, hf, rfl⟩ ?_ ?_ ?_, ?_⟩
  · intro c hc'
    rw [hsl]
    rcases mem_cons.mp hc' with rfl | hc'
    · exact ⟨e, he, f, hf, rfl, rfl, hpath⟩
    · exact hc.path c hc'
  · intro g hg i hi
    have hold := hc.label g hg i hi
    rw [labelsOf_cons, happly]
    simp only [IslNode.withEdge, (hisln g.addr).1]
    split_ifs
    · exact hold.cons data
    · exact hold
  · intro g hg
    simp [happly, IslNode.withEdge, (hisln g.addr).2.2.1, hlt, hc.wf.key_eq_iff he hg]
  · intro g hg
    simp [happly, IslNode.withEdge, (hisln g.addr).2.1, hlt.ne]
  · intro g hg
    simp [happly, IslNode.withEdge, (hisln g.addr).2.2.2, hlt, hc.wf.key_eq_iff hf hg]
  · rw [map_cons, filter_cons_of_pos (by simpa using hlt)]
    exact hp.cons _

/-- `tbx_isl_insert` adds the interval. -/
theorem Represents.insert (h : Represents isl l chains stored) (hle : lo ≤ hi) (data : δ)
    (flipsHi flipsLo : Nat) :
    ∃ l' chains', Represents (tbxIslInsert isl lo hi data flipsHi flipsLo) l' chains'
      (⟨lo, hi, data⟩ :: stored) := by
  obtain ⟨isl₀, hisl₀⟩ : ∃ i, i = { isl with nIntervals := isl.nIntervals + 1 } := ⟨_, rfl⟩
  have hc₀ : Chained isl₀ l chains := h.chained.congr (by rw [hisl₀]) fun x => by rw [hisl₀]
  have hl₀ : Listed isl₀ l stored := h.listed.congr (by rw [hisl₀])
  obtain ⟨l₁, chains₁, f, hfst₁, hc₁, hl₁, hfkey, hfaddr, hmem₁, hcount₁⟩ :=
    hc₀.addEndPoint hl₀ hi flipsHi
  obtain ⟨l₂, chains₂, e, hfst₂, hc₂, hl₂, hekey, headdr, hmem₂, hcount₂⟩ :=
    hc₁.addEndPoint hl₁ lo flipsLo
  obtain ⟨isl₁, hisl₁⟩ : ∃ i, i = addEndPoint isl₀ hi flipsHi := ⟨_, rfl⟩
  rw [← hisl₁] at hc₁ hl₁ hfaddr hcount₁ hc₂ hl₂ headdr hcount₂
  obtain ⟨isl₂, hisl₂⟩ : ∃ i, i = addEndPoint isl₁.1 lo flipsLo := ⟨_, rfl⟩
  rw [← hisl₂] at hc₂ hl₂ headdr hcount₂
  have hp₂ : (chains₂.map Prod.fst).Perm (stored.filter fun I => I.lo < I.hi) := by
    rw [hfst₂, hfst₁]
    exact h.perm
  have he : e ∈ l₂ := (hmem₂ e).mpr (.inl rfl)
  have hf : f ∈ l₂ := (hmem₂ f).mpr (.inr ((hmem₁ f).mpr (.inl rfl)))
  have hused : ∀ g ∈ l₂, ∃ I ∈ ⟨lo, hi, data⟩ :: stored, I.lo = g.key ∨ I.hi = g.key := by
    intro g hg
    rcases (hmem₂ g).mp hg with rfl | hg
    · exact ⟨⟨lo, hi, data⟩, by simp, .inl hekey.symm⟩
    · rcases (hmem₁ g).mp hg with rfl | hg
      · exact ⟨⟨lo, hi, data⟩, by simp, .inr hfkey.symm⟩
      · obtain ⟨I, hI, hend⟩ := h.used g hg
        exact ⟨I, by simp [hI], hend⟩
  have hcount : isl₂.1.nIntervals = (⟨lo, hi, data⟩ :: stored : List (Interval κ δ)).length := by
    rw [hcount₂, hcount₁, hisl₀, length_cons, h.count]
    rfl
  subst hekey hfkey
  have hgo : tbxIslInsert isl e.key f.key data flipsHi flipsLo =
      if compare e.key f.key = .eq then
        { isl₂.1 with
          isln := update isl₂.1.isln e.addr
            ((isl₂.1.isln e.addr).withPoint (data :: (isl₂.1.isln e.addr).point)) }
      else
        { isl₂.1 with
          isln := labelWalk isl₂.1.sl.nodes f.key f.addr data isl₂.1.sl.fresh e.addr
            (listEnds isl₂.1.isln e.addr f.addr data) } := by
    rw [← headdr, ← hfaddr, hisl₂, hisl₁, hisl₀]
    rfl
  by_cases hpt : e.key = f.key
  · rw [if_pos (compare_eq_iff_eq.mpr hpt)] at hgo
    obtain ⟨hc₃, hl₃, hp₃⟩ := Represents.addPoint hc₂ hl₂ hp₂ he
      (show (tbxIslInsert isl e.key f.key data flipsHi flipsLo).sl = isl₂.1.sl by rw [hgo])
      (by rw [hgo])
    rw [hpt] at hl₃ hp₃ hc₃ hgo hused hcount ⊢
    exact ⟨l₂, chains₂, hc₃, hl₃, hp₃, hused, by rw [hgo, ← hcount]⟩
  · rw [if_neg fun hcmp => hpt (compare_eq_iff_eq.mp hcmp)] at hgo
    obtain ⟨p, hc₃, hl₃, hp₃⟩ := Represents.addInterval hc₂ hl₂ hp₂ he hf (lt_of_le_of_ne hle hpt)
      (show (tbxIslInsert isl e.key f.key data flipsHi flipsLo).sl = isl₂.1.sl by rw [hgo])
      (by rw [hgo])
    exact ⟨l₂, _, hc₃, hl₃, hp₃, hused, by rw [hgo, ← hcount]⟩

end

end LStore.Toolbox
