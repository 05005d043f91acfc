import LStore.Toolbox.IntervalQuery

/-!
# Which queries are exact

An interval that starts in front of the lower bound and reaches it has exactly one edge
that leads over the bound; every other interval that meets the query is listed where it
starts. The iteration therefore yields each of them once, except that intervals which
start at the upper bound are left out when a point is stored there.
-/

namespace LStore.Toolbox

open Links Paths Partition List

variable {κ δ : Type*} [LinearOrder κ] {sl : TbxSl κ Unit}

variable {isl : TbxIsl κ δ} {a b : List (Entry κ)} {chains : List (Labelled κ δ)}
variable {c : Labelled κ δ} {x : κ} {i : Nat}

/-- An edge of a chain from a predecessor of the cut leads over it. -/
theorem Chained.crosses_of_mem (h : Chained isl (a ++ b) chains) (ha : ∀ e ∈ a, e.key < x)
    (hb : ∀ e ∈ b, x ≤ e.key) (hc : c ∈ chains) (hx : (predAt a i, i) ∈ c.2) :
    Crosses (edgeNext isl.sl) (rank isl.sl) (x : WithBot κ) (predAt a i, i) := by
  obtain ⟨g, hg, (haddr : g.addr = predAt a i), (hgl : i ≤ g.level)⟩ := h.sources hc _ hx
  have hgx : g.key < x := by
    rcases predAt_mem a i with hhead | ⟨e, he, _, heq⟩
    · exact absurd (haddr.trans hhead) (h.wf.ne_head hg)
    · rw [h.wf.eq_of_addr hg (mem_append_left b he) (haddr.trans heq.symm)]
      exact ha e he
  have hnext := h.wf.next_predAt (h.wf.level_lt hg hgl)
  rw [← haddr, ← h.wf.edgeNext_eq hg hgl] at hnext
  obtain ⟨_, t, ht, hto, _, _, _⟩ := h.edge_between hc hg (haddr ▸ hx)
  obtain ⟨t', ht', _, heq⟩ := mem_onLevel.mp (mem_of_mem_head? (hnext.symm.trans hto))
  have htb : x ≤ t.key := by
    rw [← h.wf.eq_of_addr (mem_append_right a ht') ht heq]
    exact hb t' ht'
  refine ⟨?_, t.addr, ?_, ?_⟩
  · rw [← haddr, h.wf.rank_entry hg]
    exact WithBot.coe_lt_coe.mpr hgx
  · rw [← haddr]
    exact hto
  · rw [h.wf.rank_entry ht]
    exact WithBot.coe_le_coe.mpr htb

/-- An edge that leads over the cut starts at a predecessor of it. -/
theorem Wf.source_of_crosses (h : Wf sl (a ++ b)) (ha : ∀ e ∈ a, e.key < x)
    (hb : ∀ e ∈ b, x ≤ e.key) {g} (hg : g ∈ a ++ b)
    (hcross : Crosses (edgeNext sl) (rank sl) (x : WithBot κ) (g.addr, i)) :
    g.addr = predAt a i := by
  obtain ⟨hlt, t', hto, hle⟩ := hcross
  have hi := h.le_level hg hto
  obtain ⟨t, ht, rfl, _, _⟩ := h.edge_target hg hto
  rw [h.rank_entry hg, WithBot.coe_lt_coe] at hlt
  rw [h.rank_entry ht, WithBot.coe_le_coe] at hle
  have hga : g ∈ a := by
    rcases mem_append.mp hg with hga | hgb
    · exact hga
    · exact absurd hlt (not_lt.mpr (hb g hgb))
  have hta : t ∉ a := fun hta => absurd (ha t hta) (not_lt.mpr hle)
  obtain ⟨a₁, a₂, rfl⟩ := append_of_mem hga
  have h' : Wf sl (a₁ ++ g :: (a₂ ++ b)) := by simpa using h
  rw [h'.edgeNext_at hi, onLevel_append] at hto
  have hnil : onLevel a₂ i = [] := by
    cases hlev : onLevel a₂ i with
    | nil => rfl
    | cons y ys =>
      rw [hlev] at hto
      have hy : y = t.addr := by simpa using hto
      obtain ⟨t', ht', _, heq⟩ := mem_onLevel.mp (show y ∈ onLevel a₂ i by simp [hlev])
      have htt := h.eq_of_addr (by simp [ht']) ht (heq.trans hy)
      exact absurd (htt ▸ (show t' ∈ a₁ ++ g :: a₂ by simp [ht'])) hta
  rw [predAt, onLevel_append, onLevel_cons_of_le hi, hnil, last_append]
  rfl

section

variable (h : Chained isl (a ++ b) chains)
include h

/-- A chain has an edge from a predecessor of the cut if its interval leads over it, and only
one. -/
theorem Chained.crossing (ha : ∀ e ∈ a, e.key < x) (hb : ∀ e ∈ b, x ≤ e.key) (hc : c ∈ chains) :
    ((∃ i ∈ List.range (isl.sl.currentMax + 1), (predAt a i, i) ∈ c.2) ↔
      c.1.lo < x ∧ x ≤ c.1.hi) ∧
      ∀ i j, (predAt a i, i) ∈ c.2 → (predAt a j, j) ∈ c.2 → i = j := by
  obtain ⟨e, he, f, hf, hlo, hhi, hp⟩ := h.path c hc
  have hrising := h.wf.rising (h.sources hc)
  have hends : rank isl.sl e.addr < (x : WithBot κ) ∧ (x : WithBot κ) ≤ rank isl.sl f.addr ↔
      c.1.lo < x ∧ x ≤ c.1.hi := by
    rw [h.wf.rank_entry he, h.wf.rank_entry hf, WithBot.coe_lt_coe, WithBot.coe_le_coe, hlo, hhi]
  constructor
  · rw [← hends]
    constructor
    · rintro ⟨i, _, hx⟩
      exact hp.crosses_ends hrising hx (h.crosses_of_mem ha hb hc hx)
    · rintro ⟨hlt, hle⟩
      obtain ⟨⟨u, i⟩, hu, hcross⟩ := hp.exists_crossing hlt hle
      obtain ⟨g, hg, (haddr : g.addr = u), (hgl : i ≤ g.level)⟩ := h.sources hc _ hu
      subst haddr
      have hsrc := h.wf.source_of_crosses ha hb hg hcross
      have hlevel := h.wf.levels g hg
      exact ⟨i, mem_range.mpr (by omega), hsrc ▸ hu⟩
  · intro i j hi hj
    exact congrArg Prod.snd (hp.crossing_unique hrising hi hj
      (h.crosses_of_mem ha hb hc hi) (h.crosses_of_mem ha hb hc hj))

/-- The labels that the scan finds on a level. -/
theorem Chained.level_labels (i : Nat) :
    (match (isl.sl.nodes (predAt a i)).data with
      | none => []
      | some _ => (isl.isln (predAt a i)).edge i).Perm (labelsOf chains (predAt a i, i)) := by
  rcases predAt_mem a i with hhead | ⟨g, hg, hgl, haddr⟩
  · have hnone : labelsOf chains (predAt a i, i) = [] := by
      refine labelsOf_eq_nil fun c hc hx => ?_
      obtain ⟨g, hg, haddr, _⟩ := h.sources hc _ hx
      exact h.wf.ne_head hg (haddr.trans hhead)
    rw [hnone, hhead, h.head_data]
  · have hg' : g ∈ a ++ b := mem_append_left b hg
    rw [← haddr, h.data g hg']
    exact h.label g hg' i hgl

theorem Chained.edgeData_perm (n : Nat) :
    (edgeData isl (predAt a) n).Perm
      ((List.range n).flatMap fun i => labelsOf chains (predAt a i, i)) := by
  induction n with
  | zero => simp [edgeData]
  | succ n ih =>
    rw [edgeData, range_succ, flatMap_append, flatMap_singleton]
    exact ((h.level_labels n).append ih).trans perm_append_comm

end

/-- The interval starts in front of the lower bound and reaches it. -/
def Over (lo : Option κ) (I : Interval κ δ) : Prop := ∃ x ∈ lo, I.lo < x ∧ x ≤ I.hi

instance (lo : Option κ) (I : Interval κ δ) : Decidable (Over lo I) :=
  inferInstanceAs (Decidable (∃ x ∈ lo, _))

/-- The scan of the levels yields the intervals that reach over the lower bound. -/
theorem Chained.over_perm (h : Chained isl (a ++ b) chains) {lo} (hcut : Cut (cmpLo lo) a b) :
    (edgeData isl (predAt a) (isl.sl.currentMax + 1)).Perm
      ((chains.filter fun c => Over lo c.1).map fun c => c.1.data) := by
  refine (h.edgeData_perm _).trans ?_
  cases lo with
  | none =>
    have ha : a = [] := by
      refine eq_nil_iff_forall_not_mem.mpr fun e he => ?_
      exact absurd (hcut.below e he) (by simp [cmpLo])
    subst ha
    have hnone : ∀ i, labelsOf chains (predAt ([] : List (Entry κ)) i, i) = [] := by
      refine fun i => labelsOf_eq_nil fun c hc hx => ?_
      obtain ⟨g, hg, haddr, _⟩ := h.sources hc _ hx
      exact h.wf.ne_head hg haddr
    simp [hnone, Over]
  | some x =>
    have ha : ∀ e ∈ a, e.key < x := fun e he => compare_lt_iff_lt.mp (hcut.below e he)
    have hb : ∀ e ∈ b, x ≤ e.key := fun e he => by
      by_contra hlt
      exact hcut.above e he (compare_lt_iff_lt.mpr (not_le.mp hlt))
    obtain ⟨n, hn⟩ : ∃ n, n = isl.sl.currentMax + 1 := ⟨_, rfl⟩
    have hparts : ((List.range n).flatMap fun i =>
        chains.filter fun c => (predAt a i, i) ∈ c.2).Perm
        (chains.filter fun c => ∃ i ∈ List.range n, (predAt a i, i) ∈ c.2) := by
      refine flatMap_filter_perm ?_
      refine pairwise_lt_range.imp fun hlt c hc hi hj => ?_
      exact hlt.ne ((h.crossing ha hb hc).2 _ _ hi hj)
    have hfilter : (chains.filter fun c => Over (some x) c.1) =
        chains.filter fun c => ∃ i ∈ List.range n, (predAt a i, i) ∈ c.2 := by
      refine filter_congr fun c hc => ?_
      rw [decide_eq_decide, hn, (h.crossing ha hb hc).1]
      simp [Over]
    rw [hfilter, ← hn]
    have hmap := hparts.map fun c => c.1.data
    rw [map_flatMap] at hmap
    exact hmap

variable {l m : List (Entry κ)} {stored : List (Interval κ δ)} {e : Entry κ}
variable {hi : Option κ}

/-- All that a node lists: points and intervals that start. -/
def startsAt (isl : TbxIsl κ δ) (e : Entry κ) : List δ :=
  (isl.isln e.addr).point ++ (isl.isln e.addr).start

/-- A node lists the intervals that start there. -/
theorem Listed.lists_perm (h : Listed isl l stored) (he : e ∈ l) :
    (startsAt isl e).Perm ((stored.filter fun I => I.lo = e.key).map Interval.data) := by
  have hsplit : (stored.filter fun I => I.lo = e.key) = stored.filter fun I =>
      (I.lo = I.hi ∧ I.lo = e.key) ∨ (I.lo < I.hi ∧ I.lo = e.key) := by
    refine filter_congr fun I hI => ?_
    have hle := (h.ends I hI).1
    rcases eq_or_lt_of_le hle with heq | hlt
    · simp [heq]
    · simp [hlt, hlt.ne]
  have hparts := filter_or_perm (s := stored) (p := fun I => I.lo = I.hi ∧ I.lo = e.key)
    (q := fun I => I.lo < I.hi ∧ I.lo = e.key) fun I _ heq hlt => hlt.1.ne heq.1
  rw [hsplit]
  refine ((h.point e he).append (h.start e he)).trans ?_
  rw [← map_append]
  exact (hparts.map _).symm

/-- Nodes list the intervals that start at one of them. -/
theorem Listed.flatMap_perm (h : Listed isl l stored) (hm : ∀ e ∈ m, e ∈ l)
    (hkeys : m.Pairwise fun e f => e.key < f.key) :
    (m.flatMap (startsAt isl)).Perm
      ((stored.filter fun I => ∃ e ∈ m, I.lo = e.key).map Interval.data) := by
  have hparts : (m.flatMap fun e => stored.filter fun I => I.lo = e.key).Perm
      (stored.filter fun I => ∃ e ∈ m, I.lo = e.key) := by
    refine flatMap_filter_perm (hkeys.imp fun hlt I _ he hf => ?_)
    exact hlt.ne (he.symm.trans hf)
  refine List.Perm.trans ?_ (hparts.map Interval.data)
  rw [map_flatMap]
  exact List.Perm.flatMap_left _ fun e he => h.lists_perm (hm e he)

/-- The scan of the nodes: all lists in front of the upper bound, one list at it. -/
theorem Wf.nodeData_eq {a} (h : Wf isl.sl (a ++ m)) :
    nodeData isl hi m = ((m.filter fun e => ∀ y ∈ hi, e.key < y).flatMap (startsAt isl)) ++
      (m.filter fun e => hi = some e.key).flatMap fun e => hiData (isl.isln e.addr) := by
  induction m generalizing a with
  | nil => rfl
  | cons e m ih =>
    have h' : Wf isl.sl ((a ++ [e]) ++ m) := by simpa using h
    have hcmp := h.cmp_node (show e ∈ a ++ e :: m by simp)
    rw [nodeData]
    cases hi with
    | none => simp [cmpHi, ih h', startsAt]
    | some y =>
      simp only [cmpHi, hcmp]
      rcases lt_trichotomy e.key y with hlt | heq | hgt
      · rw [compare_lt_iff_lt.mpr hlt]
        simp [hlt, hlt.ne', ih h', startsAt]
      · have habove : ∀ f ∈ m, y < f.key := fun f hf => heq ▸ h.lt_behind hf
        have hnone : (m.filter fun f => ∀ y' ∈ some y, f.key < y') = [] :=
          filter_eq_nil_iff.mpr fun f hf => by simpa using (habove f hf).le
        have hnone' : (m.filter fun f => some y = some f.key) = [] :=
          filter_eq_nil_iff.mpr fun f hf => by simpa using (habove f hf).ne
        rw [compare_eq_iff_eq.mpr heq, filter_cons_of_neg (by simp [heq]),
          filter_cons_of_pos (by simp [heq]), hnone, hnone']
        simp
      · have habove : ∀ f ∈ e :: m, y < f.key :=
          forall_mem_cons.mpr ⟨hgt, fun f hf => hgt.trans (h.lt_behind hf)⟩
        have hnone : ((e :: m).filter fun f => ∀ y' ∈ some y, f.key < y') = [] :=
          filter_eq_nil_iff.mpr fun f hf => by simpa using (habove f hf).le
        have hnone' : ((e :: m).filter fun f => some y = some f.key) = [] :=
          filter_eq_nil_iff.mpr fun f hf => by simpa using (habove f hf).ne
        rw [compare_gt_iff_gt.mpr hgt, hnone, hnone']
        rfl

omit [LinearOrder κ] in
theorem hiData_eq (h : (isl.isln e.addr).point = [] ∨ (isl.isln e.addr).start = []) :
    hiData (isl.isln e.addr) = startsAt isl e := by
  rw [hiData, startsAt]
  split_ifs with hp
  · rw [hp, nil_append]
  · rw [h.resolve_left hp, append_nil]

omit [LinearOrder κ] in
theorem hiData_length_le (isl : TbxIsl κ δ) (e : Entry κ) :
    (hiData (isl.isln e.addr)).length ≤ (startsAt isl e).length ∧
      ((isl.isln e.addr).point ≠ [] ∧ (isl.isln e.addr).start ≠ [] →
        (hiData (isl.isln e.addr)).length < (startsAt isl e).length) := by
  rw [hiData, startsAt, length_append]
  split_ifs with hp
  · exact ⟨Nat.le_add_left _ _, fun hne => absurd hp hne.1⟩
  · refine ⟨Nat.le_add_right _ _, fun hne => ?_⟩
    have := length_pos_of_ne_nil hne.2
    omega

omit [LinearOrder κ] in
/-- A node with points and starting intervals does not yield all of them. -/
theorem flatMap_hiData_lt
    (h : ∃ e ∈ m, (isl.isln e.addr).point ≠ [] ∧ (isl.isln e.addr).start ≠ []) :
    (m.flatMap fun e => hiData (isl.isln e.addr)).length < (m.flatMap (startsAt isl)).length := by
  have hle : ∀ m : List (Entry κ), (m.flatMap fun e => hiData (isl.isln e.addr)).length ≤
      (m.flatMap (startsAt isl)).length := by
    intro m
    induction m with
    | nil => simp
    | cons e m ih =>
      have := (hiData_length_le isl e).1
      rw [flatMap_cons, flatMap_cons, length_append, length_append]
      omega
  obtain ⟨e, he, hne⟩ := h
  obtain ⟨s, t, rfl⟩ := append_of_mem he
  have hlt := (hiData_length_le isl e).2 hne
  have hs := hle s
  have ht := hle t
  simp only [flatMap_append, flatMap_cons, length_append]
  omega

variable {lo : Option κ} {I : Interval κ δ}

/-- The interval meets the query; null bounds are no bounds. -/
def Intersects (lo hi : Option κ) (I : Interval κ δ) : Prop :=
  (∀ x ∈ lo, x ≤ I.hi) ∧ ∀ y ∈ hi, I.lo ≤ y

instance (lo hi : Option κ) (I : Interval κ δ) : Decidable (Intersects lo hi I) :=
  inferInstanceAs (Decidable (_ ∧ _))

/-- A point and an interval that is no point both start at the upper bound. -/
def Hidden (stored : List (Interval κ δ)) (hi : Option κ) : Prop :=
  ∃ k ∈ hi, (∃ I ∈ stored, I.lo = k ∧ I.hi = k) ∧ ∃ I ∈ stored, I.lo = k ∧ k < I.hi

instance (stored : List (Interval κ δ)) (hi : Option κ) : Decidable (Hidden stored hi) :=
  inferInstanceAs (Decidable (∃ k ∈ hi, _))

theorem exists_cut (h : Wf sl l) (lo : Option κ) : ∃ a b, l = a ++ b ∧ Cut (cmpLo lo) a b := by
  cases lo with
  | none => exact ⟨[], l, rfl, by simp, by simp [cmpLo]⟩
  | some x =>
    obtain ⟨a, b, hl, hcut, _⟩ := h.cut_key x
    exact ⟨a, b, hl, hcut⟩

/-- The entries behind the cut have the keys from the lower bound on. -/
theorem mem_behind_iff {k} (hcut : Cut (cmpLo lo) a b) (hk : ∃ e ∈ a ++ b, e.key = k)
    (P : κ → Prop) : (∃ e ∈ b, P e.key ∧ k = e.key) ↔ (∀ x ∈ lo, x ≤ k) ∧ P k := by
  constructor
  · rintro ⟨e, he, hP, rfl⟩
    refine ⟨fun x hx => ?_, hP⟩
    have habove := hcut.above e he
    rw [Option.mem_def.mp hx] at habove
    by_contra hlt
    exact habove (compare_lt_iff_lt.mpr (not_le.mp hlt))
  · rintro ⟨hle, hP⟩
    obtain ⟨e, he, rfl⟩ := hk
    rcases mem_append.mp he with hea | heb
    · have hbelow := hcut.below e hea
      cases lo with
      | none => simp [cmpLo] at hbelow
      | some x => exact absurd (compare_lt_iff_lt.mp hbelow) (not_lt.mpr (hle x rfl))
    · exact ⟨e, heb, hP, rfl⟩

/-- The nodes behind the cut that satisfy `P` list the stored intervals that start there. -/
theorem Represents.starts_perm (h : Represents isl (a ++ b) chains stored)
    (hcut : Cut (cmpLo lo) a b) (P : κ → Prop) [DecidablePred P] :
    ((b.filter fun e => P e.key).flatMap (startsAt isl)).Perm
      ((stored.filter fun I => (∀ x ∈ lo, x ≤ I.lo) ∧ P I.lo).map Interval.data) := by
  have hsorted := (pairwise_append.mp h.chained.wf.sorted).2.1
  obtain ⟨m, hm⟩ : ∃ m, m = b.filter fun e => P e.key := ⟨_, rfl⟩
  have hmem : ∀ e ∈ m, e ∈ a ++ b := fun e he =>
    mem_append_right a (mem_of_mem_filter (hm ▸ he))
  have hfilter : (stored.filter fun I => ∃ e ∈ m, I.lo = e.key) =
      stored.filter fun I => (∀ x ∈ lo, x ≤ I.lo) ∧ P I.lo := by
    refine filter_congr fun I hI => ?_
    rw [decide_eq_decide, ← mem_behind_iff hcut (h.listed.ends I hI).2.1 P, hm]
    simp [and_assoc]
  rw [← hfilter, ← hm]
  refine h.listed.flatMap_perm hmem ?_
  rw [hm]
  exact hsorted.sublist filter_sublist

/-- The chains over the cut are those of the stored intervals that reach over it. -/
theorem Represents.over_perm (h : Represents isl (a ++ b) chains stored)
    (hcut : Cut (cmpLo lo) a b) :
    (edgeData isl (predAt a) (isl.sl.currentMax + 1)).Perm
      ((stored.filter fun I => Over lo I).map Interval.data) := by
  refine (h.chained.over_perm hcut).trans ?_
  have hmap : ((chains.filter fun c => Over lo c.1).map fun c => c.1.data) =
      ((chains.map Prod.fst).filter fun I => Over lo I).map Interval.data := by
    rw [filter_map, map_map]
    rfl
  have hfilter : (stored.filter fun I => I.lo < I.hi).filter (fun I => Over lo I) =
      stored.filter fun I => Over lo I := by
    rw [filter_filter]
    refine filter_congr fun I _ => ?_
    rw [← Bool.decide_and, decide_eq_decide]
    constructor
    · exact fun hboth => hboth.1
    · rintro ⟨x, hx, hlt, hle⟩
      exact ⟨⟨x, hx, hlt, hle⟩, hlt.trans_le hle⟩
  rw [hmap, ← hfilter]
  exact (h.perm.filter _).map _

/-- A stored interval meets a query by reaching over the lower bound, or by starting in front of
the upper bound or at it. -/
theorem intersects_iff (hle : I.lo ≤ I.hi) (hq : ∀ x ∈ lo, ∀ y ∈ hi, x ≤ y) :
    Intersects lo hi I ↔ Over lo I ∨ ((∀ x ∈ lo, x ≤ I.lo) ∧ ∀ y ∈ hi, I.lo < y) ∨
      ((∀ x ∈ lo, x ≤ I.lo) ∧ hi = some I.lo) := by
  constructor
  · rintro ⟨hreach, hstart⟩
    by_cases hfrom : ∀ x ∈ lo, x ≤ I.lo
    · refine .inr ?_
      cases hi with
      | none => exact .inl ⟨hfrom, by simp⟩
      | some y =>
        rcases eq_or_lt_of_le (hstart y rfl) with heq | hlt
        · exact .inr ⟨hfrom, by rw [heq]⟩
        · exact .inl ⟨hfrom, by simpa using hlt⟩
    · simp only [not_forall, not_le] at hfrom
      obtain ⟨x, hx, hlt⟩ := hfrom
      exact .inl ⟨x, hx, hlt, hreach x hx⟩
  · rintro (⟨x, hx, hlt, hreach⟩ | ⟨hfrom, hbefore⟩ | ⟨hfrom, hat⟩)
    · refine ⟨fun x' hx' => ?_, fun y hy => hlt.le.trans (hq x hx y hy)⟩
      rw [Option.mem_unique hx' hx]
      exact hreach
    · exact ⟨fun x hx => (hfrom x hx).trans hle, fun y hy => (hbefore y hy).le⟩
    · refine ⟨fun x hx => (hfrom x hx).trans hle, fun y hy => ?_⟩
      rw [hat] at hy
      exact (Option.some.inj hy).le

/-- The stored intervals that meet a query, by where the iteration finds them. -/
theorem Represents.intersects_perm (h : Represents isl l chains stored)
    (hq : ∀ x ∈ lo, ∀ y ∈ hi, x ≤ y) :
    (stored.filter fun I => Intersects lo hi I).Perm
      ((stored.filter fun I => Over lo I) ++
        ((stored.filter fun I => (∀ x ∈ lo, x ≤ I.lo) ∧ ∀ y ∈ hi, I.lo < y) ++
          stored.filter fun I => (∀ x ∈ lo, x ≤ I.lo) ∧ hi = some I.lo)) := by
  have hsplit : (stored.filter fun I => Intersects lo hi I) = stored.filter fun I =>
      Over lo I ∨ ((∀ x ∈ lo, x ≤ I.lo) ∧ ∀ y ∈ hi, I.lo < y) ∨
        ((∀ x ∈ lo, x ≤ I.lo) ∧ hi = some I.lo) := by
    refine filter_congr fun I hI => ?_
    rw [decide_eq_decide, intersects_iff (h.listed.ends I hI).1 hq]
  rw [hsplit]
  refine (filter_or_perm fun I _ hover hfrom => ?_).trans
    (List.Perm.append_left _ (filter_or_perm fun I _ hbefore hat => ?_))
  · obtain ⟨x, hx, hlt, _⟩ := hover
    rcases hfrom with ⟨hfrom, _⟩ | ⟨hfrom, _⟩
    · exact absurd hlt (not_lt.mpr (hfrom x hx))
    · exact absurd hlt (not_lt.mpr (hfrom x hx))
  · exact lt_irrefl _ (hbefore.2 I.lo hat.2)

/-- A point hides the intervals that start at the upper bound when some node there lists
both. -/
theorem Represents.hidden_iff (h : Represents isl (a ++ b) chains stored)
    (hcut : Cut (cmpLo lo) a b) (hq : ∀ x ∈ lo, ∀ y ∈ hi, x ≤ y) :
    Hidden stored hi ↔ ∃ e ∈ b.filter fun e => hi = some e.key,
      (isl.isln e.addr).point ≠ [] ∧ (isl.isln e.addr).start ≠ [] := by
  have hpoint : ∀ e ∈ a ++ b, (isl.isln e.addr).point ≠ [] ↔
      ∃ I ∈ stored, I.lo = e.key ∧ I.hi = e.key := by
    intro e he
    rw [Ne, h.listed.point_eq_nil he]
    simp only [not_forall, not_not]
    constructor
    · rintro ⟨I, hI, heq, hlo⟩
      exact ⟨I, hI, hlo, heq ▸ hlo⟩
    · rintro ⟨I, hI, hlo, hhi⟩
      exact ⟨I, hI, hlo.trans hhi.symm, hlo⟩
  have hstart : ∀ e ∈ a ++ b, (isl.isln e.addr).start ≠ [] ↔
      ∃ I ∈ stored, I.lo = e.key ∧ e.key < I.hi := by
    intro e he
    rw [Ne, h.listed.start_eq_nil he]
    simp only [not_forall, not_not]
    constructor
    · rintro ⟨I, hI, hlt, hlo⟩
      exact ⟨I, hI, hlo, hlo ▸ hlt⟩
    · rintro ⟨I, hI, hlo, hlt⟩
      exact ⟨I, hI, hlo ▸ hlt, hlo⟩
  constructor
  · rintro ⟨k, hk, hpt, hst⟩
    have ⟨I, hI, hlo, _⟩ := hpt
    have hfrom : (∀ x ∈ lo, x ≤ k) ∧ hi = some k := ⟨fun x hx => hq x hx k hk, hk⟩
    obtain ⟨e, he, hat, rfl⟩ := (mem_behind_iff hcut (hlo ▸ (h.listed.ends I hI).2.1)
      fun k => hi = some k).mpr hfrom
    have he' : e ∈ a ++ b := mem_append_right a he
    exact ⟨e, mem_filter.mpr ⟨he, by simpa using hat⟩, (hpoint e he').mpr hpt,
      (hstart e he').mpr hst⟩
  · rintro ⟨e, he, hpt, hst⟩
    obtain ⟨he, hat⟩ := mem_filter.mp he
    have he' : e ∈ a ++ b := mem_append_right a he
    exact ⟨e.key, by simpa using hat, (hpoint e he').mp hpt, (hstart e he').mp hst⟩

/-- With nothing hidden the node at the upper bound yields all it lists. -/
theorem Represents.nodeData_eq_starts (h : Represents isl (a ++ b) chains stored)
    (hcut : Cut (cmpLo lo) a b) (hq : ∀ x ∈ lo, ∀ y ∈ hi, x ≤ y) (hnot : ¬Hidden stored hi) :
    nodeData isl hi b = (b.filter fun e => ∀ y ∈ hi, e.key < y).flatMap (startsAt isl) ++
      (b.filter fun e => hi = some e.key).flatMap (startsAt isl) := by
  rw [h.chained.wf.nodeData_eq]
  congr 1
  refine flatMap_congr fun e he => hiData_eq ?_
  by_contra hboth
  rw [not_or] at hboth
  exact hnot ((h.hidden_iff hcut hq).mpr ⟨e, he, hboth⟩)

/-- What a query yields, and whether it is all. -/
theorem Represents.query (h : Represents isl (a ++ b) chains stored) (hcut : Cut (cmpLo lo) a b)
    (hq : ∀ x ∈ lo, ∀ y ∈ hi, x ≤ y) :
    ∃ res, res = edgeData isl (predAt a) (isl.sl.currentMax + 1) ++ nodeData isl hi b ∧
      Drains isl (tbxIslIterSearch isl lo hi) res ∧
      (¬Hidden stored hi →
        res.Perm ((stored.filter fun I => Intersects lo hi I).map Interval.data)) ∧
      (Hidden stored hi → res.length < (stored.filter fun I => Intersects lo hi I).length) := by
  refine ⟨_, rfl, h.chained.drains hcut, ?_⟩
  have hall := (h.intersects_perm hq).map Interval.data
  rw [map_append, map_append] at hall
  have hover := h.over_perm hcut
  have hbefore := h.starts_perm hcut fun k => ∀ y ∈ hi, k < y
  have hat := h.starts_perm hcut fun k => hi = some k
  constructor
  · intro hnot
    rw [h.nodeData_eq_starts hcut hq hnot]
    exact (hover.append (hbefore.append hat)).trans hall.symm
  · intro hhidden
    rw [h.chained.wf.nodeData_eq]
    have hlt := flatMap_hiData_lt ((h.hidden_iff hcut hq).mp hhidden)
    have hlen := hall.length_eq
    rw [length_append, length_append, ← hover.length_eq, ← hbefore.length_eq,
      ← hat.length_eq, length_map] at hlen
    rw [length_append, length_append, hlen]
    omega

/-- A call of `tbx_isl_insert` with the random levels it draws. -/
structure IslInsertion (κ δ : Type*) where
  interval : Interval κ δ
  flipsHi : Nat
  flipsLo : Nat

/-- The interval list after a sequence of insertions. -/
def insertAll (isl : TbxIsl κ δ) (ops : List (IslInsertion κ δ)) : TbxIsl κ δ :=
  ops.foldl (fun isl op =>
    tbxIslInsert isl op.interval.lo op.interval.hi op.interval.data op.flipsHi op.flipsLo) isl

theorem Represents.insertAll {isl} {l : List (Entry κ)} {chains} {stored : List (Interval κ δ)}
    (ops : List (IslInsertion κ δ)) (hle : ∀ op ∈ ops, op.interval.lo ≤ op.interval.hi)
    (h : Represents isl l chains stored) :
    ∃ l' chains', Represents (Toolbox.insertAll isl ops) l' chains'
      ((ops.map IslInsertion.interval).reverse ++ stored) := by
  induction ops generalizing isl l chains stored with
  | nil => exact ⟨l, chains, h⟩
  | cons op ops ih =>
    obtain ⟨l₁, chains₁, h₁⟩ := h.insert (hle op (by simp)) op.interval.data op.flipsHi op.flipsLo
    obtain ⟨l₂, chains₂, h₂⟩ := ih (fun x hx => hle x (by simp [hx])) h₁
    refine ⟨l₂, chains₂, ?_⟩
    rw [map_cons, reverse_cons, append_assoc]
    exact h₂

/-- A query of a list built by insertions yields each stored interval that meets it exactly
once, and `tbx_isl_range_count` their number, if and only if the upper bound is not at once a
stored point and the start of a longer stored interval. -/
theorem isl_query_exact_iff {maxLevels : Nat} (hpos : 0 < maxLevels)
    (ops : List (IslInsertion κ δ)) (hle : ∀ op ∈ ops, op.interval.lo ≤ op.interval.hi)
    (hq : ∀ x ∈ lo, ∀ y ∈ hi, x ≤ y) {fuel : Nat} (hfuel : ops.length < fuel) :
    ((∃ res, islDrain (insertAll (tbxIslNew maxLevels) ops) fuel
          (tbxIslIterSearch (insertAll (tbxIslNew maxLevels) ops) lo hi) = some res ∧
        res.Perm (((ops.map IslInsertion.interval).filter fun I => Intersects lo hi I).map
          Interval.data)) ∧
      tbxIslRangeCount (insertAll (tbxIslNew maxLevels) ops) fuel lo hi =
        some (((ops.map IslInsertion.interval).countP fun I => Intersects lo hi I : Nat) : Int)) ↔
      ¬Hidden (ops.map IslInsertion.interval) hi := by
  obtain ⟨l, chains, h⟩ := Represents.insertAll ops hle (represents_new (δ := δ) hpos)
  obtain ⟨isl, hisl⟩ : ∃ i : TbxIsl κ δ, i = insertAll (tbxIslNew maxLevels) ops := ⟨_, rfl⟩
  obtain ⟨stored, hstored⟩ : ∃ s, s = ops.map IslInsertion.interval := ⟨_, rfl⟩
  rw [← hstored, append_nil, ← hisl] at h
  rw [← hstored, ← hisl]
  have hlen : stored.length = ops.length := by rw [hstored, length_map]
  obtain ⟨a, b, rfl, hcut⟩ := exists_cut h.chained.wf lo
  obtain ⟨res, -, hdrains, hall, hless⟩ := h.query hcut hq
  have hrev : Hidden stored.reverse hi ↔ Hidden stored hi := by simp [Hidden]
  rw [hrev] at hall hless
  rw [filter_reverse, map_reverse] at hall
  rw [filter_reverse, length_reverse, ← countP_eq_length_filter] at hless
  have hle : res.length ≤ stored.countP fun I => Intersects lo hi I := by
    by_cases hhidden : Hidden stored hi
    · exact (hless hhidden).le
    · rw [(hall hhidden).length_eq, length_reverse, length_map,
        ← countP_eq_length_filter]
  have hrun := hdrains fuel (by
    have hcount := countP_le_length (l := stored) (p := fun I => Intersects lo hi I)
    omega)
  rw [tbxIslRangeCount, countLoop_eq, hrun]
  constructor
  · rintro ⟨⟨res', hres', hperm⟩, _⟩ hhidden
    cases hres'
    have hlt := hless hhidden
    rw [hperm.length_eq, length_map, countP_eq_length_filter] at hlt
    exact lt_irrefl _ hlt
  · intro hnot
    have hperm := (hall hnot).trans (reverse_perm _)
    refine ⟨⟨res, rfl, hperm⟩, ?_⟩
    rw [Option.map_some, hperm.length_eq, length_map, countP_eq_length_filter,
      Int.zero_add]

/-- Two overlapping intervals and a point between them, all met by one query. -/
theorem isl_query_exact_three :
    ¬Hidden [(⟨1, 5, 10⟩ : Interval Nat Nat), ⟨4, 4, 20⟩, ⟨5, 9, 30⟩] (some 5) ∧
      (∃ res, islDrain (insertAll (tbxIslNew 2) [⟨⟨1, 5, 10⟩, 1, 0⟩, ⟨⟨4, 4, 20⟩, 0, 0⟩,
          ⟨⟨5, 9, 30⟩, 0, 1⟩]) 4 (tbxIslIterSearch (insertAll (tbxIslNew 2)
            [⟨⟨1, 5, 10⟩, 1, 0⟩, ⟨⟨4, 4, 20⟩, 0, 0⟩, ⟨⟨5, 9, 30⟩, 0, 1⟩]) (some 3) (some 5)) =
          some res ∧ res.Perm [10, 20, 30]) ∧
      tbxIslRangeCount (insertAll (tbxIslNew 2) [⟨⟨1, 5, 10⟩, 1, 0⟩, ⟨⟨4, 4, 20⟩, 0, 0⟩,
        ⟨⟨5, 9, 30⟩, 0, 1⟩]) 4 (some 3) (some 5) = some 3 := by
  have hnot : ¬Hidden [(⟨1, 5, 10⟩ : Interval Nat Nat), ⟨4, 4, 20⟩, ⟨5, 9, 30⟩] (some 5) := by
    decide
  exact ⟨hnot, (isl_query_exact_iff (by decide)
    [⟨⟨1, 5, 10⟩, 1, 0⟩, ⟨⟨4, 4, 20⟩, 0, 0⟩, ⟨⟨5, 9, 30⟩, 0, 1⟩] (by decide) (by decide)
    (by decide)).mpr hnot⟩

/-- The interval that starts at 5 meets the query from 3 to 5 and is not returned, because a
point is stored at 5. -/
theorem isl_query_misses_start :
    Intersects (some 3) (some 5) (⟨5, 9, 30⟩ : Interval Nat Nat) ∧
      islDrain (insertAll (tbxIslNew 2) [⟨⟨1, 5, 10⟩, 1, 0⟩, ⟨⟨5, 5, 20⟩, 0, 0⟩,
        ⟨⟨5, 9, 30⟩, 0, 1⟩]) 4 (tbxIslIterSearch (insertAll (tbxIslNew 2) [⟨⟨1, 5, 10⟩, 1, 0⟩,
          ⟨⟨5, 5, 20⟩, 0, 0⟩, ⟨⟨5, 9, 30⟩, 0, 1⟩]) (some 3) (some 5)) = some [10, 20] ∧
      tbxIslRangeCount (insertAll (tbxIslNew 2) [⟨⟨1, 5, 10⟩, 1, 0⟩, ⟨⟨5, 5, 20⟩, 0, 0⟩,
        ⟨⟨5, 9, 30⟩, 0, 1⟩]) 4 (some 3) (some 5) = some 2 := by
  decide +kernel

end LStore.Toolbox
