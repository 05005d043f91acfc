import LStore.Base.Paths
import LStore.Toolbox.IntervalSkipList
import LStore.Toolbox.SkipListUpdate
import Mathlib.Data.List.Nodup
import Mathlib.Order.WithBot

/-!
# Labelled chains

Every stored interval that is no point has a chain of skip-list edges from its lower to
its upper end point, and an edge carries exactly the intervals whose chain takes it. A
node that is linked in splits edges; it takes over their labels, and the chains that used
them run through it.
-/

namespace LStore.Toolbox

open Links Paths List Function

variable {κ δ : Type*}

/-- A stored interval. -/
structure Interval (κ δ : Type*) where
  lo : κ
  hi : κ
  data : δ
deriving DecidableEq

/-- The edges of a node: its next pointers up to its level. -/
def edgeNext (sl : TbxSl κ Unit) (a i : Nat) : Option Nat :=
  if i ≤ (sl.nodes a).level then (sl.nodes a).next i else none

/-- The key of a node, the head being below all keys. -/
def rank (sl : TbxSl κ Unit) (a : Nat) : WithBot κ :=
  match (sl.nodes a).key with
  | none => ⊥
  | some k => k

/-- A stored interval with its chain of edges. -/
abbrev Labelled (κ δ : Type*) := Interval κ δ × List (Nat × Nat)

/-- The labels that the chains put on an edge. -/
def labelsOf (chains : List (Labelled κ δ)) (x : Nat × Nat) : List δ :=
  (chains.filter fun c => x ∈ c.2).map fun c => c.1.data

section

variable [LinearOrder κ] {sl : TbxSl κ Unit} {l a b : List (Entry κ)} {e f : Entry κ} {i c : Nat}
variable {p : List (Nat × Nat)}

section

variable (h : Wf sl l) (he : e ∈ l)
include h he

theorem Wf.eq_of_addr (hf : f ∈ l) (heq : e.addr = f.addr) : e = f :=
  inj_on_of_nodup_map h.distinct he hf heq

theorem Wf.eq_of_key (hf : f ∈ l) (heq : e.key = f.key) : e = f := by
  have hnd : (l.map Entry.key).Nodup :=
    pairwise_map.mpr (h.sorted.imp fun hlt => ne_of_lt hlt)
  exact inj_on_of_nodup_map hnd he hf heq

theorem Wf.ne_head : e.addr ≠ head := by
  have := (h.addr e he).1
  omega

theorem Wf.rank_entry : rank sl e.addr = (e.key : WithBot κ) := by
  rw [rank, (h.node e he).1]

theorem Wf.level_lt (hi : i ≤ e.level) : i < sl.maxLevels := by
  have hle := h.levels e he
  have hlt := h.max_lt
  omega

theorem Wf.edgeNext_eq (hi : i ≤ e.level) : edgeNext sl e.addr i = (sl.nodes e.addr).next i := by
  rw [edgeNext, (h.node e he).2, if_pos hi]

theorem Wf.le_level (hc : edgeNext sl e.addr i = some c) : i ≤ e.level := by
  by_contra hlt
  rw [edgeNext, (h.node e he).2, if_neg hlt] at hc
  simp at hc

end

/-- An edge leads to the next entry of its level. -/
theorem Wf.edgeNext_at (h : Wf sl (a ++ e :: b)) (hi : i ≤ e.level) :
    edgeNext sl e.addr i = (onLevel b i).head? := by
  have he : e ∈ a ++ e :: b := by simp
  have hlinks := h.links i (h.level_lt he hi)
  rw [onLevel_append, onLevel_cons_of_le hi] at hlinks
  rw [h.edgeNext_eq he hi]
  exact hlinks.next_at

/-- An edge leads upwards, to an entry of its level. -/
theorem Wf.edge_target (h : Wf sl l) (he : e ∈ l) (hc : edgeNext sl e.addr i = some c) :
    ∃ f ∈ l, f.addr = c ∧ i ≤ f.level ∧ e.key < f.key := by
  have hi := h.le_level he hc
  obtain ⟨a, b, rfl⟩ := append_of_mem he
  rw [h.edgeNext_at hi] at hc
  obtain ⟨f, hf, hlevel, haddr⟩ := mem_onLevel.mp (mem_of_mem_head? hc)
  exact ⟨f, by simp [hf], haddr, hlevel, h.lt_behind hf⟩

/-- The edge of level `i` that leads to an entry starts at its predecessor. -/
theorem Wf.edge_source (h : Wf sl (a ++ e :: b)) (hf : f ∈ a ++ e :: b)
    (hc : edgeNext sl f.addr i = some e.addr) : f.addr = predAt a i ∧ i ≤ e.level := by
  have he : e ∈ a ++ e :: b := by simp
  obtain ⟨g, hg, haddr, hlevel, _⟩ := h.edge_target hf hc
  obtain rfl := h.eq_of_addr hg he haddr
  have hi := h.le_level hf hc
  have hnd := h.nodup_level i
  obtain ⟨a', b', hsplit⟩ := append_of_mem hf
  have hsplit' : onLevel (a ++ g :: b) i = onLevel a' i ++ f.addr :: onLevel b' i := by
    rw [hsplit, onLevel_append, onLevel_cons_of_le hi]
  rw [hsplit] at h
  rw [h.edgeNext_at hi] at hc
  obtain ⟨rest, hrest⟩ := List.head?_eq_some_iff.mp hc
  have heq : onLevel a i ++ g.addr :: onLevel b i =
      (onLevel a' i ++ [f.addr]) ++ g.addr :: rest := by
    rw [← onLevel_cons_of_le hlevel, ← onLevel_append, hsplit', hrest]
    simp
  have hnd' := (nodup_cons.mp hnd).2
  rw [onLevel_append, onLevel_cons_of_le hlevel, perm_middle.nodup_iff, nodup_cons,
    mem_append, not_or] at hnd'
  obtain ⟨hfront, _, _⟩ := (append_cons_inj_of_notMem hnd'.1.1 hnd'.1.2).mp heq
  refine ⟨?_, hlevel⟩
  rw [predAt, hfront, last_append]
  rfl

/-- The sources of a chain are entries. -/
theorem Wf.path_mem (h : Wf sl l) {s t} (hs : ∃ e ∈ l, e.addr = s) (hp : Path (edgeNext sl) s p t) :
    ∀ x ∈ p, ∃ g ∈ l, g.addr = x.1 ∧ x.2 ≤ g.level := by
  induction p generalizing s with
  | nil => simp
  | cons y p ih =>
    obtain ⟨e, he, rfl⟩ := hs
    obtain ⟨hsrc, c, hc, hrest⟩ := hp
    rw [hsrc] at hc
    obtain ⟨f, hf, haddr, _, _⟩ := h.edge_target he hc
    intro x hx
    rcases mem_cons.mp hx with rfl | hx
    · exact ⟨e, he, hsrc.symm, h.le_level he hc⟩
    · exact ih ⟨f, hf, haddr⟩ hrest x hx

theorem Wf.rising (h : Wf sl l) (hp : ∀ x ∈ p, ∃ g ∈ l, g.addr = x.1 ∧ x.2 ≤ g.level) :
    Rising (edgeNext sl) (rank sl) p := by
  intro x hx c hc
  obtain ⟨g, hg, haddr, _⟩ := hp x hx
  rw [← haddr] at hc ⊢
  obtain ⟨f, hf, rfl, _, hlt⟩ := h.edge_target hg hc
  rw [h.rank_entry hg, h.rank_entry hf]
  exact WithBot.coe_lt_coe.mpr hlt

end

section

variable {chains : List (Labelled κ δ)} {x y : Nat × Nat}

theorem labelsOf_cons (c : Labelled κ δ) (chains : List (Labelled κ δ)) (x : Nat × Nat) :
    labelsOf (c :: chains) x = if x ∈ c.2 then c.1.data :: labelsOf chains x
      else labelsOf chains x := by
  by_cases hx : x ∈ c.2
  · simp [labelsOf, hx]
  · simp [labelsOf, hx]

theorem labelsOf_perm {chains'} (h : chains.Perm chains') (x : Nat × Nat) :
    (labelsOf chains x).Perm (labelsOf chains' x) :=
  (h.filter _).map _

theorem labelsOf_eq_nil (h : ∀ c ∈ chains, x ∉ c.2) : labelsOf chains x = [] := by
  rw [labelsOf, filter_eq_nil_iff.mpr, map_nil]
  intro c hc
  simpa using h c hc

theorem mem_labelsOf {c} (hc : c ∈ chains) (hx : x ∈ c.2) : c.1.data ∈ labelsOf chains x :=
  mem_map_of_mem (mem_filter.mpr ⟨hc, by simpa using hx⟩)

/-- Chains edited one by one, so that they take an edge where they took another. -/
theorem labelsOf_map {g : List (Nat × Nat) → List (Nat × Nat)}
    (h : ∀ c ∈ chains, x ∈ g c.2 ↔ y ∈ c.2) :
    labelsOf (chains.map fun c => (c.1, g c.2)) x = labelsOf chains y := by
  induction chains with
  | nil => rfl
  | cons c chains ih =>
    rw [map_cons, labelsOf_cons, labelsOf_cons, ih fun d hd => h d (by simp [hd])]
    simp [h c (by simp)]

theorem copyIslData_perm (src : List δ) : (copyIslData src []).Perm src := by
  have hrev : ∀ dest : List δ, copyIslData src dest = src.reverse ++ dest := by
    induction src with
    | nil => exact fun _ => rfl
    | cons d src ih =>
      intro dest
      exact (ih (d :: dest)).trans (by simp)
  rw [hrev, append_nil]
  exact src.reverse_perm

end

section

variable [LinearOrder κ]

/-- The entries of an interval list, and the chains that its edges are labelled with. -/
structure Chained (isl : TbxIsl κ δ) (l : List (Entry κ)) (chains : List (Labelled κ δ)) :
    Prop where
  wf : Wf isl.sl l
  data : ∀ e ∈ l, (isl.sl.nodes e.addr).data = some ()
  head_data : (isl.sl.nodes head).data = none
  path : ∀ c ∈ chains, ∃ e ∈ l, ∃ f ∈ l, e.key = c.1.lo ∧ f.key = c.1.hi ∧
    Path (edgeNext isl.sl) e.addr c.2 f.addr
  label : ∀ e ∈ l, ∀ i ≤ e.level,
    ((isl.isln e.addr).edge i).Perm (labelsOf chains (e.addr, i))

/-- What the nodes list: the intervals that start, the points, and the number of intervals
that end there. -/
structure Listed (isl : TbxIsl κ δ) (l : List (Entry κ)) (stored : List (Interval κ δ)) : Prop where
  start : ∀ e ∈ l, (isl.isln e.addr).start.Perm
    ((stored.filter fun I => I.lo < I.hi ∧ I.lo = e.key).map Interval.data)
  point : ∀ e ∈ l, (isl.isln e.addr).point.Perm
    ((stored.filter fun I => I.lo = I.hi ∧ I.lo = e.key).map Interval.data)
  nEnd : ∀ e ∈ l, (isl.isln e.addr).nEnd = stored.countP fun I => I.lo < I.hi ∧ I.hi = e.key
  ends : ∀ I ∈ stored, I.lo ≤ I.hi ∧ (∃ e ∈ l, e.key = I.lo) ∧ ∃ e ∈ l, e.key = I.hi

variable {isl : TbxIsl κ δ} {l a b : List (Entry κ)} {chains : List (Labelled κ δ)}
variable {stored : List (Interval κ δ)} {key : κ}

theorem Chained.sources (h : Chained isl l chains) {c} (hc : c ∈ chains) :
    ∀ x ∈ c.2, ∃ g ∈ l, g.addr = x.1 ∧ x.2 ≤ g.level := by
  obtain ⟨e, he, f, _, _, _, hp⟩ := h.path c hc
  exact h.wf.path_mem ⟨e, he, rfl⟩ hp

/-- An edge of a chain lies between the ends of its interval. -/
theorem Chained.edge_between (h : Chained isl l chains) {c} (hc : c ∈ chains) {g i} (hg : g ∈ l)
    (hx : (g.addr, i) ∈ c.2) :
    i ≤ g.level ∧ ∃ t ∈ l, edgeNext isl.sl g.addr i = some t.addr ∧ g.key < t.key ∧
      c.1.lo ≤ g.key ∧ t.key ≤ c.1.hi := by
  obtain ⟨e, he, f, hf, hlo, hhi, hp⟩ := h.path c hc
  obtain ⟨t', ht'⟩ := hp.edge hx
  obtain ⟨t, ht, rfl, _, hlt⟩ := h.wf.edge_target hg ht'
  have hbetween := hp.between (h.wf.rising (h.sources hc)) hx ht'
  rw [h.wf.rank_entry he, h.wf.rank_entry hg, h.wf.rank_entry ht, h.wf.rank_entry hf,
    WithBot.coe_le_coe, WithBot.coe_le_coe, hlo, hhi] at hbetween
  exact ⟨h.wf.le_level hg ht', t, ht, ht', hlt, hbetween⟩

/-- The edges after a node is linked in at the cut. -/
theorem Wf.edgeNext_insert (h : Wf isl.sl (a ++ b)) (key : κ) (flips x i : Nat) :
    edgeNext (Toolbox.posTbxSlInsert isl.sl (predAt a) key (some ()) flips).1 x i =
      if x = isl.sl.fresh then
        if i ≤ (newEntry isl.sl key flips).level then (isl.sl.nodes (predAt a i)).next i else none
      else if i ≤ (newEntry isl.sl key flips).level ∧ x = predAt a i ∧
          i ≤ (isl.sl.nodes x).level then some isl.sl.fresh
      else edgeNext isl.sl x i := by
  simp only [edgeNext, h.posTbxSlInsert_nodes]
  by_cases hx : x = isl.sl.fresh
  · simp only [if_pos hx]
    split_ifs <;> rfl
  · simp only [if_neg hx, withNext_level, withNext_next]
    split_ifs <;> first | rfl | (exfalso; tauto)

/-- Linking in a node, which takes over the labels of the edges it splits. -/
theorem Chained.insertNode (h : Chained isl (a ++ b) chains) (ha : ∀ f ∈ a, f.key < key)
    (hb : ∀ f ∈ b, key < f.key) (flips : Nat) {n : IslNode δ}
    (hn : ∀ i ≤ (newEntry isl.sl key flips).level, predAt a i ≠ head →
      n.edge i = copyIslData ((isl.isln (predAt a i)).edge i) [])
    (hn' : ∀ i ≤ (newEntry isl.sl key flips).level, predAt a i = head → n.edge i = []) :
    ∃ chains', chains'.map Prod.fst = chains.map Prod.fst ∧
      Chained { isl with
        sl := (posTbxSlInsert isl.sl (predAt a) key (some ()) flips).1
        isln := Function.update isl.isln isl.sl.fresh n }
        (a ++ newEntry isl.sl key flips :: b) chains' := by
  have hwf := h.wf.posTbxSlInsert ha hb (some ()) flips
  have hnodes := h.wf.posTbxSlInsert_nodes key (some ()) flips
  have hold : ∀ e ∈ a ++ b, e.addr ≠ isl.sl.fresh := fun e he => Nat.ne_of_lt (h.wf.addr e he).2
  let cut : Nat × Nat → Prop := fun x =>
    x.2 ≤ (newEntry isl.sl key flips).level ∧ x.1 = predAt a x.2
  have hsources : ∀ c ∈ chains, ∀ x ∈ c.2, x.1 ≠ isl.sl.fresh ∧ x.1 ≠ head := by
    intro c hc x hx
    obtain ⟨g, hg, haddr, _⟩ := h.sources hc x hx
    rw [← haddr]
    exact ⟨hold g hg, h.wf.ne_head hg⟩
  refine ⟨chains.map fun c => (c.1, Paths.split isl.sl.fresh cut c.2), by simp, hwf, ?_, ?_, ?_, ?_⟩
  · intro e he
    rcases mem_middle.mp he with rfl | he
    · rw [hnodes, if_pos (show (newEntry isl.sl key flips).addr = isl.sl.fresh from rfl)]
    · rw [hnodes, if_neg (hold e he), withNext_data]
      exact h.data e he
  · rw [hnodes, if_neg (Nat.ne_of_lt h.wf.fresh_pos), withNext_data]
    exact h.head_data
  · intro c' hc'
    obtain ⟨c, hc, rfl⟩ := mem_map.mp hc'
    obtain ⟨e, he, f, hf, hlo, hhi, hp⟩ := h.path c hc
    refine ⟨e, mem_middle.mpr (.inr he), f, mem_middle.mpr (.inr hf), hlo, hhi, ?_⟩
    refine hp.split isl.sl.fresh cut ?_ ?_
    · rintro x hx ⟨hlevel, hpred⟩
      obtain ⟨g, hg, haddr, hgl⟩ := h.sources hc x hx
      have hxl : x.2 ≤ (isl.sl.nodes x.1).level := by
        rw [← haddr, (h.wf.node g hg).2]
        exact hgl
      refine ⟨?_, ?_⟩
      · rw [h.wf.edgeNext_insert, if_neg (hsources c hc x hx).1, if_pos ⟨hlevel, hpred, hxl⟩]
      · rw [h.wf.edgeNext_insert, if_pos rfl, if_pos hlevel, ← hpred, edgeNext, if_pos hxl]
    · intro x hx hcut
      rw [h.wf.edgeNext_insert, if_neg (hsources c hc x hx).1, if_neg]
      rintro ⟨hlevel, hpred, _⟩
      exact hcut ⟨hlevel, hpred⟩
  · intro e he i hi
    change ((update isl.isln isl.sl.fresh n e.addr).edge i).Perm _
    rcases mem_middle.mp he with rfl | he
    · rw [show (newEntry isl.sl key flips).addr = isl.sl.fresh from rfl, update_self]
      have hlabels : labelsOf (chains.map fun c => (c.1, Paths.split isl.sl.fresh cut c.2))
          (isl.sl.fresh, i) = labelsOf chains (predAt a i, i) := by
        refine labelsOf_map fun c hc => ?_
        rw [mem_split]
        constructor
        · rintro (hx | ⟨_, x, hx, ⟨_, hpred⟩, rfl⟩)
          · exact absurd rfl (hsources c hc _ hx).1
          · rw [← hpred]
            exact hx
        · exact fun hx => .inr ⟨rfl, (predAt a i, i), hx, ⟨hi, rfl⟩, rfl⟩
      rw [hlabels]
      rcases predAt_mem a i with hhead | ⟨g, hg, hgl, haddr⟩
      · rw [hn' i hi hhead, labelsOf_eq_nil]
        intro c hc hx
        exact (hsources c hc _ hx).2 hhead
      · have hg' : g ∈ a ++ b := mem_append_left b hg
        rw [hn i hi (haddr ▸ h.wf.ne_head hg'), ← haddr]
        exact (copyIslData_perm _).trans (h.label g hg' i hgl)
    · rw [update_of_ne (hold e he)]
      have hlabels : labelsOf (chains.map fun c => (c.1, Paths.split isl.sl.fresh cut c.2))
          (e.addr, i) = labelsOf chains (e.addr, i) := by
        refine labelsOf_map fun c hc => ?_
        rw [mem_split]
        constructor
        · rintro (hx | ⟨hv, _⟩)
          · exact hx
          · exact absurd hv (hold e he)
        · exact .inl
      rw [hlabels]
      exact h.label e he i hi

theorem Listed.start_eq_nil (h : Listed isl l stored) {e} (he : e ∈ l) :
    (isl.isln e.addr).start = [] ↔ ∀ J ∈ stored, ¬(J.lo < J.hi ∧ J.lo = e.key) := by
  rw [← perm_nil, (h.start e he).congr_left, perm_nil, map_eq_nil_iff, filter_eq_nil_iff]
  simp

theorem Listed.point_eq_nil (h : Listed isl l stored) {e} (he : e ∈ l) :
    (isl.isln e.addr).point = [] ↔ ∀ J ∈ stored, ¬(J.lo = J.hi ∧ J.lo = e.key) := by
  rw [← perm_nil, (h.point e he).congr_left, perm_nil, map_eq_nil_iff, filter_eq_nil_iff]
  simp

/-- No stored interval ends where there is no entry. -/
theorem Listed.absent (h : Listed isl l stored) (hkey : ∀ f ∈ l, f.key ≠ key) :
    ∀ I ∈ stored, I.lo ≠ key ∧ I.hi ≠ key := by
  intro I hI
  obtain ⟨_, ⟨e, he, hlo⟩, ⟨f, hf, hhi⟩⟩ := h.ends I hI
  exact ⟨hlo ▸ hkey e he, hhi ▸ hkey f hf⟩

/-- The lists after a node without intervals is linked in. -/
theorem Listed.insertNode (h : Listed isl l stored) {isl' l' e n}
    (hmem : ∀ f, f ∈ l' ↔ f = e ∨ f ∈ l) (hnew : ∀ f ∈ l, f.key ≠ e.key ∧ f.addr ≠ e.addr)
    (hisln : isl'.isln = Function.update isl.isln e.addr n)
    (hn : n.start = [] ∧ n.point = [] ∧ n.nEnd = 0) : Listed isl' l' stored := by
  have habsent := h.absent fun f hf => (hnew f hf).1
  have hold : ∀ f ∈ l, isl'.isln f.addr = isl.isln f.addr := by
    intro f hf
    rw [hisln, update_of_ne (hnew f hf).2]
  have hself : isl'.isln e.addr = n := by rw [hisln, update_self]
  refine ⟨fun f hf => ?_, fun f hf => ?_, fun f hf => ?_, fun I hI => ?_⟩
  · rcases (hmem f).mp hf with rfl | hf
    · rw [hself, hn.1, filter_eq_nil_iff.mpr, map_nil]
      exact fun I hI => by simp [(habsent I hI).1]
    · rw [hold f hf]
      exact h.start f hf
  · rcases (hmem f).mp hf with rfl | hf
    · rw [hself, hn.2.1, filter_eq_nil_iff.mpr, map_nil]
      exact fun I hI => by simp [(habsent I hI).1]
    · rw [hold f hf]
      exact h.point f hf
  · rcases (hmem f).mp hf with rfl | hf
    · rw [hself, hn.2.2, countP_eq_zero.mpr]
      · rfl
      · exact fun I hI => by simp [(habsent I hI).2]
    · rw [hold f hf]
      exact h.nEnd f hf
  · obtain ⟨hle, ⟨f, hf, hlo⟩, ⟨g, hg, hhi⟩⟩ := h.ends I hI
    exact ⟨hle, ⟨f, (hmem f).mpr (.inr hf), hlo⟩, g, (hmem g).mpr (.inr hg), hhi⟩

/-- `tbx_isl_insert` finds or links in the node of an end point. -/
theorem Chained.addEndPoint (h : Chained isl l chains) (hl : Listed isl l stored) (key : κ)
    (flips : Nat) :
    ∃ l' chains' e, chains'.map Prod.fst = chains.map Prod.fst ∧
      Chained (addEndPoint isl key flips).1 l' chains' ∧
      Listed (addEndPoint isl key flips).1 l' stored ∧ e.key = key ∧
      (addEndPoint isl key flips).2 = e.addr ∧ (∀ f, f ∈ l' ↔ f = e ∨ f ∈ l) ∧
      (addEndPoint isl key flips).1.nIntervals = isl.nIntervals := by
  obtain ⟨a, b, rfl, ha, hptr, ⟨e, b, rfl, rfl, hcmp, hnext, _⟩ | ⟨hcmp, hb⟩⟩ :=
    h.wf.findKey_cases key
  · have hfind : findKey isl.sl e.key = (predAt a, .eq) := Prod.ext hptr hcmp
    have hgo : Toolbox.addEndPoint isl e.key flips = (isl, e.addr) := by
      rw [Toolbox.addEndPoint, hfind]
      simp [hnext]
    rw [hgo]
    refine ⟨a ++ e :: b, chains, e, rfl, h, hl, rfl, rfl, fun f => ?_, rfl⟩
    simp only [mem_append, mem_cons]
    tauto
  · have hwf := h.wf.posTbxSlInsert ha hb (some ()) flips
    have hlevel : ((posTbxSlInsert isl.sl (predAt a) key (some ()) flips).1.nodes
        isl.sl.fresh).level = (newEntry isl.sl key flips).level :=
      (hwf.node (newEntry isl.sl key flips) (by simp)).2
    obtain ⟨edge, hedge⟩ : ∃ edge : Nat → List δ, edge = fun i =>
        if i ≤ (newEntry isl.sl key flips).level ∧ predAt a i ≠ head then
          copyIslData ((isl.isln (predAt a i)).edge i) (IslNode.create.edge i)
        else IslNode.create.edge i := ⟨_, rfl⟩
    have hgo : Toolbox.addEndPoint isl key flips =
        ({ isl with
           sl := (posTbxSlInsert isl.sl (predAt a) key (some ()) flips).1
           isln := update isl.isln isl.sl.fresh (IslNode.create.withEdge edge) },
          isl.sl.fresh) := by
      have hsn : (posTbxSlInsert isl.sl (predAt a) key (some ()) flips).2 = isl.sl.fresh := rfl
      simp only [Toolbox.addEndPoint, hptr, hedge]
      cases hc : (findKey isl.sl key).2 with
      | eq => exact absurd hc hcmp
      | lt => simp only [hsn, hlevel]
      | gt => simp only [hsn, hlevel]
    obtain ⟨chains', hfst, hchained⟩ := h.insertNode ha hb flips
      (n := IslNode.create.withEdge edge)
      (fun i hi hne => by simp [IslNode.withEdge, hedge, hi, hne, IslNode.create])
      (fun i hi heq => by simp [IslNode.withEdge, hedge, heq, IslNode.create])
    rw [hgo]
    refine ⟨a ++ newEntry isl.sl key flips :: b, chains', newEntry isl.sl key flips, hfst, hchained,
      hl.insertNode (fun _ => mem_middle) (fun f hf => ?_) rfl ⟨rfl, rfl, rfl⟩, rfl, rfl,
      fun _ => mem_middle, rfl⟩
    refine ⟨?_, Nat.ne_of_lt (h.wf.addr f hf).2⟩
    rcases mem_append.mp hf with hf | hf
    · exact (ha f hf).ne
    · exact (hb f hf).ne'

end

end LStore.Toolbox
