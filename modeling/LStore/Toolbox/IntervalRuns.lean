import LStore.Toolbox.IntervalRemove
import LStore.Toolbox.SkipListMap

/-!
# Runs of insertions and removals

A removal takes one interval off a represented list when the interval is stored, no other
stored interval has its data across the same edges, and each node that the removal unlinks
joins, for every label that crosses it, two edges that lead to the same node. In every run
whose removals are of this kind the labels are chains, and the lists and counters of the
nodes are those of the stored intervals.
-/

namespace LStore.Toolbox

open Links Paths List Option Function

variable {κ δ : Type*} [LinearOrder κ]

section

variable [DecidableEq δ]

/-- The node of a key. -/
def nodeAt (sl : TbxSl κ Unit) (key : κ) : Option Nat :=
  let (ptr, cmp) := findKey sl key
  if cmp = .eq then (sl.nodes (ptr 0)).next 0 else none

/-- No stored interval other than `I` has the end point. -/
def Lone (stored : List (Interval κ δ)) (I : Interval κ δ) (key : κ) : Prop :=
  ∀ J ∈ stored.erase I, J.lo ≠ key ∧ J.hi ≠ key

instance (stored : List (Interval κ δ)) (I : Interval κ δ) (key : κ) :
    Decidable (Lone stored I key) :=
  inferInstanceAs (Decidable (∀ J ∈ stored.erase I, _))

/-- If some data labels the edge of level `i` from `u` and the edge of level `j` from `v`, then
the edges of both levels from `v` lead to the same node. -/
def JoinsAt (isl : TbxIsl κ δ) (gone : Option Nat) (u v i j : Nat) : Prop :=
  u ≠ head → ∀ d ∈ (isl.isln u).edge i, d ∈ (isl.isln v).edge j →
    past isl.sl gone v i = past isl.sl gone v j

instance (isl : TbxIsl κ δ) (gone : Option Nat) (u v i j : Nat) :
    Decidable (JoinsAt isl gone u v i j) :=
  inferInstanceAs (Decidable (_ → _))

/-- Data that labels an edge into the node of the key and an edge out of it finds that the two
levels lead on to the same node. -/
def Joins (isl : TbxIsl κ δ) (gone : Option Nat) (key : κ) : Prop :=
  ∀ v ∈ nodeAt isl.sl key, ∀ i ≤ (isl.sl.nodes v).level, ∀ j ≤ (isl.sl.nodes v).level,
    JoinsAt isl gone ((findKey isl.sl key).1 i) v i j

instance (isl : TbxIsl κ δ) (gone : Option Nat) (key : κ) : Decidable (Joins isl gone key) :=
  inferInstanceAs (Decidable (∀ v ∈ nodeAt isl.sl key, _))

/-- The node of the upper end, if the removal unlinks it first. -/
def goneHi (isl : TbxIsl κ δ) (stored : List (Interval κ δ)) (I : Interval κ δ) : Option Nat :=
  if I.lo < I.hi ∧ Lone stored I I.hi then nodeAt isl.sl I.hi else none

/-- The removals that keep the chains. -/
structure RemoveOk (isl : TbxIsl κ δ) (stored : List (Interval κ δ)) (I : Interval κ δ) : Prop where
  mem : I ∈ stored
  apart : I.lo < I.hi → ∀ J ∈ stored.erase I, J.lo < J.hi → J.data = I.data →
    J.hi ≤ I.lo ∨ I.hi ≤ J.lo
  hi : Lone stored I I.hi → Joins isl none I.hi
  lo : Lone stored I I.lo → Joins isl (goneHi isl stored I) I.lo

end

variable {isl : TbxIsl κ δ} {l a b : List (Entry κ)} {chains : List (Labelled κ δ)}
variable {stored : List (Interval κ δ)} {e : Entry κ} {c : Labelled κ δ} {i j : Nat}

theorem Wf.nodeAt {sl} (h : Wf sl (a ++ e :: b)) : nodeAt sl e.key = some e.addr := by
  obtain ⟨hfind, hnext⟩ := h.findKey_entry
  rw [Toolbox.nodeAt, hfind]
  exact hnext

theorem Joins.chain {gone} (hj : Joins isl gone e.key) (h : Chained isl (a ++ e :: b) chains)
    (hc : c ∈ chains) (hin : (predAt a i, i) ∈ c.2) (hi : i ≤ e.level) (hout : (e.addr, j) ∈ c.2) :
    past isl.sl gone e.addr i = past isl.sl gone e.addr j := by
  have he : e ∈ a ++ e :: b := by simp
  have hlevel := (h.wf.node e he).2
  obtain ⟨g, hg, (haddr : g.addr = predAt a i), (hgl : i ≤ g.level)⟩ := h.sources hc _ hin
  have hjl := (h.edge_between hc he hout).1
  refine hj e.addr (by simp [h.wf.nodeAt]) i (hlevel ▸ hi) j (hlevel ▸ hjl) ?_ c.1.data ?_ ?_
  · rw [h.wf.findKey_entry.1]
    change predAt a i ≠ head
    exact haddr ▸ h.wf.ne_head hg
  · rw [h.wf.findKey_entry.1]
    change c.1.data ∈ (isl.isln (predAt a i)).edge i
    rw [← haddr] at hin ⊢
    exact (h.label g hg i hgl).mem_iff.mpr (mem_labelsOf hc hin)
  · exact (h.label e he j hjl).mem_iff.mpr (mem_labelsOf hc hout)

theorem Listed.dropIfEmpty_keep (h : Listed isl l stored) (he : e ∈ l)
    (hend : ¬∀ J ∈ stored, J.lo ≠ e.key ∧ J.hi ≠ e.key) : dropIfEmpty isl e.addr e.key = isl := by
  rw [dropIfEmpty, if_neg fun hempty => hend ((h.isEmpty_iff he).mp hempty)]

variable {isl' : TbxIsl κ δ}
variable {I : Interval κ δ} {f : Entry κ} {data : δ}
variable {loose : κ → Prop}

/-- A represented list in which some end points may be unused. -/
structure Pending (isl : TbxIsl κ δ) (l : List (Entry κ)) (chains : List (Labelled κ δ))
    (stored : List (Interval κ δ)) (loose : κ → Prop) : Prop where
  chained : Chained isl l chains
  listed : Listed isl l stored
  perm : (chains.map Prod.fst).Perm (stored.filter fun I => I.lo < I.hi)
  used : ∀ e ∈ l, loose e.key ∨ ∃ I ∈ stored, I.lo = e.key ∨ I.hi = e.key
  count : isl.nIntervals = stored.length

theorem Pending.represents (h : Pending isl l chains stored loose) (hnone : ∀ k, ¬loose k) :
    Represents isl l chains stored :=
  ⟨h.chained, h.listed, h.perm, fun e he => (h.used e he).resolve_left (hnone e.key), h.count⟩

theorem Pending.mem_stored (h : Pending isl l chains stored loose) : ∀ c ∈ chains, c.1 ∈ stored :=
  fun _ hc => mem_of_mem_filter (h.perm.mem_iff.mp (mem_map_of_mem hc))

/-- An end point that some interval uses is kept. -/
theorem Pending.keep (h : Pending isl l chains stored loose) (he : e ∈ l)
    (hend : ¬∀ J ∈ stored, J.lo ≠ e.key ∧ J.hi ≠ e.key) :
    dropIfEmpty isl e.addr e.key = isl ∧
      Pending isl l chains stored fun k => loose k ∧ k ≠ e.key := by
  refine ⟨h.listed.dropIfEmpty_keep he hend, h.chained, h.listed, h.perm, fun g hg => ?_, h.count⟩
  by_cases hge : g.key = e.key
  · simp only [not_forall] at hend
    obtain ⟨J, hJ, hend⟩ := hend
    rw [hge]
    exact .inr ⟨J, hJ, by tauto⟩
  · exact (h.used g hg).imp_left fun hloose => ⟨hloose, hge⟩

section

variable (hend : ∀ J ∈ stored, J.lo ≠ e.key ∧ J.hi ≠ e.key)
variable (hjoin : ∀ c ∈ chains, ∀ i j, (predAt a i, i) ∈ c.2 → i ≤ e.level → (e.addr, j) ∈ c.2 →
  edgeNext isl.sl e.addr i = edgeNext isl.sl e.addr j)
include hend hjoin

/-- An end point at which nothing is listed is unlinked. -/
theorem Chained.dropIfEmpty (h : Chained isl (a ++ e :: b) chains)
    (hl : Listed isl (a ++ e :: b) stored) (hstored : ∀ c ∈ chains, c.1 ∈ stored) :
    (dropIfEmpty isl e.addr e.key).sl = (tbxSlRemove isl.sl e.key none).1 ∧
      Chained (dropIfEmpty isl e.addr e.key) (a ++ b)
        (chains.map fun c => (c.1, Paths.skip e.addr c.2)) ∧
      Listed (dropIfEmpty isl e.addr e.key) (a ++ b) stored := by
  have he : e ∈ a ++ e :: b := by simp
  have hgo : Toolbox.dropIfEmpty isl e.addr e.key =
      { isl with sl := (tbxSlRemove isl.sl e.key none).1 } := by
    rw [Toolbox.dropIfEmpty, if_pos ((hl.isEmpty_iff he).mpr hend)]
  have hsub : ∀ g ∈ a ++ b, g ∈ a ++ e :: b := fun g hg => mem_middle.mpr (.inr hg)
  have hback : ∀ g ∈ a ++ e :: b, g.key ≠ e.key → g ∈ a ++ b := fun g hg hne =>
    (mem_middle.mp hg).resolve_left fun heq => hne (heq ▸ rfl)
  rw [hgo]
  refine ⟨rfl, h.dropNode (fun c hc => hend c.1 (hstored c hc)) hjoin rfl rfl, ?_⟩
  refine ⟨fun g hg => hl.start g (hsub g hg), fun g hg => hl.point g (hsub g hg),
    fun g hg => hl.nEnd g (hsub g hg), fun J hJ => ?_⟩
  obtain ⟨hle, ⟨s, hs, hlo⟩, ⟨t, ht, hhi⟩⟩ := hl.ends J hJ
  obtain ⟨hne, hne'⟩ := hend J hJ
  exact ⟨hle, ⟨s, hback s hs (hlo ▸ hne), hlo⟩, t, hback t ht (hhi ▸ hne'), hhi⟩

/-- An end point that no interval uses is unlinked. -/
theorem Pending.drop (h : Pending isl (a ++ e :: b) chains stored loose) :
    (dropIfEmpty isl e.addr e.key).sl = (tbxSlRemove isl.sl e.key none).1 ∧
      Pending (dropIfEmpty isl e.addr e.key) (a ++ b)
        (chains.map fun c => (c.1, Paths.skip e.addr c.2)) stored fun k => loose k ∧ k ≠ e.key := by
  obtain ⟨hsl, hc, hl⟩ := h.chained.dropIfEmpty hend hjoin h.listed h.mem_stored
  refine ⟨hsl, hc, hl, by simpa [comp_def] using h.perm, fun g hg => ?_, ?_⟩
  · have hne := (h.chained.wf.others g hg).1
    exact (h.used g (mem_middle.mpr (.inr hg))).imp_left fun hloose => ⟨hloose, hne⟩
  · rw [dropIfEmpty]
    split_ifs <;> exact h.count

end

variable [DecidableEq δ]

section

variable (h : Represents isl l chains stored)
include h

/-- The entries other than the end points of a removed interval stay used. -/
theorem Represents.used_erase :
    ∀ g ∈ l, (g.key = I.lo ∨ g.key = I.hi) ∨ ∃ J ∈ stored.erase I, J.lo = g.key ∨ J.hi = g.key := by
  intro g hg
  by_cases hends : g.key = I.lo ∨ g.key = I.hi
  · exact .inl hends
  · obtain ⟨J, hJ, hend⟩ := h.used g hg
    refine .inr ⟨J, (mem_erase_of_ne ?_).mpr hJ, hend⟩
    rintro rfl
    rcases hend with heq | heq
    · exact hends (.inl heq.symm)
    · exact hends (.inr heq.symm)

theorem Represents.count_erase (hI : I ∈ stored) :
    isl.nIntervals - 1 = (stored.erase I).length := by
  have hlen := length_erase_of_mem hI
  have hpos := length_pos_of_mem hI
  rw [h.count, hlen]
  omega

/-- Taking a point off its list. -/
theorem Represents.unlistPoint (he : e ∈ l) (hI : I ∈ stored) (hlo : I.lo = e.key)
    (hhi : I.hi = e.key) (hsl : isl'.sl = isl.sl) (hcount : isl'.nIntervals = isl.nIntervals - 1)
    (hisln : isl'.isln = Function.update isl.isln e.addr ((isl.isln e.addr).withPoint
      (removeIslData (isl.isln e.addr).point I.data).1)) :
    Pending isl' l chains (stored.erase I) fun k => k = I.lo ∨ k = I.hi := by
  have hperm := perm_cons_erase hI
  have hnot : ¬I.lo < I.hi := by
    rw [hlo, hhi]
    exact lt_irrefl _
  refine ⟨h.chained.congr hsl fun x => ?_, (h.listed.perm hperm).uncons ?_ ?_ ?_, ?_,
    h.used_erase, hcount.trans (h.count_erase hI)⟩
  · rw [update_field hisln IslNode.edge rfl]
  · intro g hg
    simp [update_field hisln IslNode.start rfl, hnot]
  · intro g hg
    rw [hisln, update_apply, hlo, hhi]
    simp only [true_and, h.chained.wf.key_eq_iff he hg]
    split_ifs with hx
    · rw [hx, ← removeIslData_fst]
      rfl
    · rfl
  · intro g hg
    simp [update_field hisln IslNode.nEnd rfl, hnot]
  · have hfilter := hperm.filter fun I : Interval κ δ => decide (I.lo < I.hi)
    rw [filter_cons_of_neg (by simpa using hnot)] at hfilter
    exact h.perm.trans hfilter

/-- The removal of a point. -/
theorem Represents.removePoint (hok : RemoveOk isl stored I) (heq : I.lo = I.hi) :
    (tbxIslRemove isl I.lo I.hi I.data).2 = 0 ∧
      ∃ l' chains', Represents (tbxIslRemove isl I.lo I.hi I.data).1 l' chains'
        (stored.erase I) := by
  obtain ⟨_, ⟨e, he, hlo⟩, _⟩ := h.listed.ends I hok.mem
  have hmem : I.data ∈ (isl.isln e.addr).point := by
    refine (h.listed.point e he).mem_iff.mpr (mem_map_of_mem (mem_filter.mpr ?_))
    exact ⟨hok.mem, by simp [heq, hlo]⟩
  obtain ⟨a, b, rfl⟩ := append_of_mem he
  obtain ⟨hfind, hnext⟩ := h.chained.wf.findKey_entry
  obtain ⟨isl₁, hisl₁⟩ : ∃ i, i = { isl with
      nIntervals := isl.nIntervals - 1
      isln := update isl.isln e.addr ((isl.isln e.addr).withPoint
        (removeIslData (isl.isln e.addr).point I.data).1) } := ⟨_, rfl⟩
  have hgo : tbxIslRemove isl I.lo I.hi I.data =
      (dropIfEmpty isl₁ e.addr e.key, (removeIslData (isl.isln e.addr).point I.data).2) := by
    rw [tbxIslRemove, ← heq, ← hlo, hfind, hisl₁]
    simp [hnext]
  have hpending : Pending isl₁ (a ++ e :: b) chains (stored.erase I) fun k =>
      k = I.lo ∨ k = I.hi :=
    h.unlistPoint he hok.mem hlo.symm (heq ▸ hlo.symm) (by rw [hisl₁]) (by rw [hisl₁])
      (by rw [hisl₁])
  have hnone : ∀ k, ¬((k = I.lo ∨ k = I.hi) ∧ k ≠ e.key) := by
    rintro k ⟨hk | hk, hne⟩
    · exact hne (hk.trans hlo.symm)
    · exact hne (hk.trans (heq ▸ hlo.symm))
  rw [hgo]
  refine ⟨removeIslData_snd hmem, ?_⟩
  by_cases hlone : Lone stored I e.key
  · obtain ⟨_, hdrop⟩ := hpending.drop hlone fun c hc i j hin hi hout => by
      have hjoin := (hok.hi (heq ▸ hlo ▸ hlone))
      rw [← heq, ← hlo] at hjoin
      rw [hisl₁, ← past_none, ← past_none]
      exact hjoin.chain h.chained hc hin hi hout
    exact ⟨_, _, hdrop.represents hnone⟩
  · obtain ⟨hsame, hkeep⟩ := hpending.keep he hlone
    rw [hsame]
    exact ⟨_, _, hkeep.represents hnone⟩

/-- The chain of a stored interval, and the other chains. -/
theorem Represents.chain_of (hI : I ∈ stored) (hlt : I.lo < I.hi) :
    ∃ p rest, chains.Perm ((I, p) :: rest) ∧
      (rest.map Prod.fst).Perm ((stored.erase I).filter fun I => I.lo < I.hi) := by
  have hmem : I ∈ chains.map Prod.fst :=
    h.perm.mem_iff.mpr (mem_filter.mpr ⟨hI, by simpa using hlt⟩)
  obtain ⟨⟨J, p⟩, hc, hJ⟩ := mem_map.mp hmem
  obtain rfl : J = I := hJ
  obtain ⟨s, t, hst⟩ := append_of_mem hc
  have hmiddle : chains.Perm ((J, p) :: (s ++ t)) := by
    rw [hst]
    exact perm_middle
  refine ⟨p, s ++ t, hmiddle, ?_⟩
  have hchains := hmiddle.map Prod.fst
  have hstored := (perm_cons_erase hI).filter fun I : Interval κ δ => decide (I.lo < I.hi)
  rw [filter_cons_of_pos (by simpa using hlt)] at hstored
  exact ((hchains.symm.trans h.perm).trans hstored).cons_inv

section

variable (hok : RemoveOk isl stored I)
include hok

/-- Taking an interval off its edges and lists. -/
theorem Represents.unlistInterval (he : e ∈ l) (hf : f ∈ l) (hlo : e.key = I.lo)
    (hhi : f.key = I.hi) (hlt : I.lo < I.hi) (hsl : isl'.sl = isl.sl)
    (hcount : isl'.nIntervals = isl.nIntervals - 1) (isln : Nat → IslNode δ)
    (hlists : ∀ x, (isln x).point = (isl.isln x).point ∧ (isln x).nEnd = (isl.isln x).nEnd ∧
      (isln x).start = if x = e.addr then (isl.isln x).start.erase I.data else (isl.isln x).start)
    (hedge : ∀ g ∈ l, ∀ i ≤ g.level, (isln g.addr).edge i = if I.lo ≤ g.key ∧
      reaches isl.sl.nodes I.hi g.addr i = true then
      ((isl.isln g.addr).edge i).erase I.data else (isl.isln g.addr).edge i)
    (hisln : isl'.isln = Function.update isln f.addr ((isln f.addr).withEnd ((isln f.addr).nEnd -
      1))) :
    ∃ rest, (∀ c ∈ rest, c ∈ chains) ∧
      Pending isl' l rest (stored.erase I) fun k => k = I.lo ∨ k = I.hi := by
  obtain ⟨p, rest, hchains, hp⟩ := h.chain_of hok.mem hlt
  refine ⟨rest, fun c hc => hchains.mem_iff.mpr (mem_cons_of_mem _ hc), ?_, ?_, hp,
    h.used_erase, hcount.trans (h.count_erase hok.mem)⟩
  · refine h.chained.untag hchains (fun d hd hdata => ?_) hsl fun g hg i hi => ?_
    · have hd' := mem_filter.mp (hp.mem_iff.mp (mem_map_of_mem hd))
      exact hok.apart hlt d.1 hd'.1 (by simpa using hd'.2) hdata
    · rw [← hedge g hg i hi, update_field hisln IslNode.edge rfl]
  · refine (h.listed.perm (perm_cons_erase hok.mem)).uncons ?_ ?_ ?_
    · intro g hg
      rw [update_field hisln IslNode.start rfl, (hlists g.addr).2.2, ← hlo]
      simp [hlo ▸ hlt, h.chained.wf.key_eq_iff he hg]
    · intro g hg
      rw [update_field hisln IslNode.point rfl, (hlists g.addr).1]
      simp [hlt.ne]
    · intro g hg
      rw [hisln, update_apply, ← hhi, ← (hlists g.addr).2.1]
      simp only [hhi ▸ hlt, true_and, h.chained.wf.key_eq_iff hf hg]
      split_ifs with hx
      · rw [hx]
        rfl
      · exact (Int.sub_zero _).symm

/-- A removal up to the unlinking of the end points. -/
theorem Represents.removeInterval_unlist (hlt : I.lo < I.hi) :
    ∃ a e b f d isl₁ rest, l = a ++ e :: (b ++ f :: d) ∧ e.key = I.lo ∧ f.key = I.hi ∧
      isl₁.sl = isl.sl ∧ (∀ c ∈ rest, c ∈ chains) ∧
      Pending isl₁ l rest (stored.erase I) (fun k => k = I.lo ∨ k = I.hi) ∧
      tbxIslRemove isl I.lo I.hi I.data =
        (dropIfEmpty (dropIfEmpty isl₁ f.addr f.key) e.addr e.key, 0) := by
  obtain ⟨_, ⟨e, he, hlo⟩, ⟨f, hf, hhi⟩⟩ := h.listed.ends I hok.mem
  have hmem : I.data ∈ (isl.isln e.addr).start := by
    refine (h.listed.start e he).mem_iff.mpr (mem_map_of_mem (mem_filter.mpr ?_))
    exact ⟨hok.mem, by simp [hlt, hlo]⟩
  -- the lower end, what is between, the upper end
  obtain ⟨a, b', rfl⟩ := append_of_mem he
  have hfb : f ∈ b' := by
    rcases mem_append.mp hf with hfa | hfb
    · have hgt := h.chained.wf.front_lt hfa
      rw [hlo, hhi] at hgt
      exact absurd hgt (lt_asymm hlt)
    · rcases mem_cons.mp hfb with rfl | hfb
      · exact absurd (hlo.symm.trans hhi) hlt.ne
      · exact hfb
  obtain ⟨b, d, rfl⟩ := append_of_mem hfb
  have haddr : f.addr ≠ e.addr := by
    intro heq
    rw [h.chained.wf.eq_of_addr hf he heq] at hhi
    exact hlt.ne (hlo.symm.trans hhi)
  obtain ⟨hfind, hnext⟩ := h.chained.wf.findKey_entry
  have hfuel : (b ++ f :: d).length < isl.sl.fresh := Nat.lt_of_succ_lt h.chained.wf.length_behind
  obtain ⟨isln₀, hisln₀⟩ : ∃ i, i = update isl.isln e.addr ((isl.isln e.addr).withStart
    (removeIslData (isl.isln e.addr).start I.data).1) := ⟨_, rfl⟩
  have hsame : ∀ x, (isln₀ x).edge = (isl.isln x).edge := fun x => by
    rw [update_field hisln₀ IslNode.edge rfl]
  obtain ⟨isln, hwalk, hlists, hedge⟩ := h.chained.wf.untagWalk
    (mem_cons_of_mem e hfb) I.data hfuel isln₀
  obtain ⟨isl₁, hisl₁⟩ : ∃ i, i = { isl with
      nIntervals := isl.nIntervals - 1
      isln := update isln f.addr
        ((isln f.addr).withEnd ((isln f.addr).nEnd - 1)) } := ⟨_, rfl⟩
  have hsl : isl₁.sl = isl.sl := by rw [hisl₁]
  have hlists' : ∀ x, (isln x).point = (isl.isln x).point ∧ (isln x).nEnd = (isl.isln x).nEnd ∧
      (isln x).start =
        if x = e.addr then (isl.isln x).start.erase I.data else (isl.isln x).start := by
    intro x
    obtain ⟨hstart, hpoint, hnEnd⟩ := hlists x
    rw [hstart, hpoint, hnEnd, hisln₀, update_apply]
    split_ifs with hx
    · rw [hx, ← removeIslData_fst]
      exact ⟨rfl, rfl, rfl⟩
    · exact ⟨rfl, rfl, rfl⟩
  obtain ⟨rest, hrest, hpending⟩ := h.unlistInterval hok he hf hlo hhi hlt hsl
    (by rw [hisl₁]) isln hlists'
    (fun g hg i hi => by rw [hedge g hg i hi, hsame, hlo, hhi]) (by rw [hisl₁])
  refine ⟨a, e, b, f, d, isl₁, rest, rfl, hlo, hhi, hsl, hrest, hpending, ?_⟩
  have hcmp : compare e.key f.key ≠ .eq := fun hcmp =>
    hlt.ne (hlo.symm.trans ((compare_eq_iff_eq.mp hcmp).trans hhi))
  rw [tbxIslRemove, ← hlo, ← hhi, hfind, hisl₁]
  simp [hnext, hcmp, ← hisln₀, hwalk, haddr, removeIslData_snd hmem]

/-- The removal of an interval that is no point. -/
theorem Represents.removeInterval (hlt : I.lo < I.hi) :
    (tbxIslRemove isl I.lo I.hi I.data).2 = 0 ∧
      ∃ l' chains', Represents (tbxIslRemove isl I.lo I.hi I.data).1 l' chains'
        (stored.erase I) := by
  obtain ⟨a, e, b, f, d, isl₁, rest, rfl, hlo, hhi, hsl, hrest, hpending, hgo⟩ :=
    h.removeInterval_unlist hok hlt
  have hassoc : a ++ e :: (b ++ f :: d) = (a ++ e :: b) ++ f :: d := by simp
  have hf : f ∈ a ++ e :: (b ++ f :: d) := by simp
  have hnone : ∀ k, ¬(((k = I.lo ∨ k = I.hi) ∧ k ≠ f.key) ∧ k ≠ e.key) := by
    rintro k ⟨⟨hk | hk, hnf⟩, hne⟩
    · exact hne (hk.trans hlo.symm)
    · exact hnf (hk.trans hhi.symm)
  rw [hgo]
  refine ⟨rfl, ?_⟩
  by_cases hloneHi : Lone stored I f.key
  · -- the upper end goes first, and edges of the lower end may run past it
    have hgone : goneHi isl stored I = some f.addr := by
      have hwf := h.chained.wf
      rw [hassoc] at hwf
      rw [goneHi, if_pos ⟨hlt, hhi ▸ hloneHi⟩, ← hhi, hwf.nodeAt]
    have hchained := h.chained
    have hpending' := hpending
    rw [hassoc] at hchained hpending'
    obtain ⟨hsl₂, hdrop⟩ := hpending'.drop hloneHi fun c hc i j hin hi hout => by
      have hjoin := hok.hi (hhi ▸ hloneHi)
      rw [← hhi] at hjoin
      rw [hsl, ← past_none, ← past_none]
      exact hjoin.chain hchained (hrest c hc) hin hi hout
    have hassoc' : (a ++ e :: b) ++ d = a ++ e :: (b ++ d) := by simp
    rw [hassoc'] at hdrop
    by_cases hloneLo : Lone stored I e.key
    · obtain ⟨_, hfinal⟩ := hdrop.drop hloneLo fun c' hc' i j hin hi hout => by
        obtain ⟨c, hc, rfl⟩ := mem_map.mp hc'
        have hjoin := hok.lo (hlo ▸ hloneLo)
        rw [← hlo, hgone] at hjoin
        have hsame := hjoin.chain h.chained (hrest c hc) (mem_skip _ |>.mp hin).1 hi
          (mem_skip _ |>.mp hout).1
        have hedges := (hchained.wf.tbxSlRemove_none).2.2 e (by simp)
        rw [hsl₂, hsl, hedges, hedges]
        exact hsame
      exact ⟨_, _, hfinal.represents hnone⟩
    · obtain ⟨hsame, hkeep⟩ := hdrop.keep (by simp) hloneLo
      rw [hsame]
      exact ⟨_, _, hkeep.represents hnone⟩
  · obtain ⟨hsame, hkeep⟩ := hpending.keep hf hloneHi
    have hgone : goneHi isl stored I = none := by
      rw [goneHi, if_neg fun hgo => hloneHi (hhi ▸ hgo.2)]
    rw [hsame]
    by_cases hloneLo : Lone stored I e.key
    · obtain ⟨_, hfinal⟩ := hkeep.drop hloneLo fun c hc i j hin hi hout => by
        have hjoin := hok.lo (hlo ▸ hloneLo)
        rw [← hlo, hgone] at hjoin
        rw [hsl, ← past_none, ← past_none]
        exact hjoin.chain h.chained (hrest c hc) hin hi hout
      exact ⟨_, _, hfinal.represents hnone⟩
    · obtain ⟨hsame', hkeep'⟩ := hkeep.keep (by simp) hloneLo
      rw [hsame']
      exact ⟨_, _, hkeep'.represents hnone⟩

/-- `tbx_isl_remove` succeeds and removes the interval. -/
theorem Represents.remove :
    (tbxIslRemove isl I.lo I.hi I.data).2 = 0 ∧
      ∃ l' chains', Represents (tbxIslRemove isl I.lo I.hi I.data).1 l' chains'
        (stored.erase I) := by
  rcases eq_or_lt_of_le (h.listed.ends I hok.mem).1 with heq | hlt
  · exact h.removePoint hok heq
  · exact h.removeInterval hok hlt

end

end

/-- The lists that insertions, and removals that keep the chains, lead to, with the intervals
they store. -/
inductive Reachable : TbxIsl κ δ → List (Interval κ δ) → Prop
  | new (maxLevels : Nat) : 0 < maxLevels → Reachable (tbxIslNew maxLevels) []
  | insert {isl : TbxIsl κ δ} {stored : List (Interval κ δ)} (lo hi : κ) (data : δ)
      (flipsHi flipsLo : Nat) : Reachable isl stored → lo ≤ hi →
      Reachable (tbxIslInsert isl lo hi data flipsHi flipsLo) (⟨lo, hi, data⟩ :: stored)
  | remove {isl : TbxIsl κ δ} {stored : List (Interval κ δ)} (I : Interval κ δ) :
      Reachable isl stored → RemoveOk isl stored I →
      Reachable (tbxIslRemove isl I.lo I.hi I.data).1 (stored.erase I)

theorem Reachable.represents {isl : TbxIsl κ δ} {stored} (h : Reachable isl stored) :
    ∃ l chains, Represents isl l chains stored := by
  induction h with
  | new maxLevels hpos => exact ⟨[], [], represents_new hpos⟩
  | insert lo hi data flipsHi flipsLo _ hle ih =>
    obtain ⟨l, chains, h⟩ := ih
    exact h.insert hle data flipsHi flipsLo
  | remove I _ hok ih =>
    obtain ⟨l, chains, h⟩ := ih
    exact (h.remove hok).2

/-- The labels are chains from lower to upper end points and nothing else, points are listed in
their nodes, `n_end` counts the intervals that end at a node and are no points, every node is
an end point, and `n_intervals` counts the stored intervals. -/
structure IslShape (isl : TbxIsl κ δ) (stored : List (Interval κ δ)) : Prop where
  chains : ∃ chains : List (Labelled κ δ),
    (chains.map Prod.fst).Perm (stored.filter fun I => I.lo < I.hi) ∧
    (∀ c ∈ chains, ∃ s ∈ levelChain isl.sl 0, ∃ t ∈ levelChain isl.sl 0,
      (isl.sl.nodes s).key = some c.1.lo ∧ (isl.sl.nodes t).key = some c.1.hi ∧
        Path (edgeNext isl.sl) s c.2 t) ∧
    ∀ a ∈ levelChain isl.sl 0, ∀ i ≤ (isl.sl.nodes a).level,
      ((isl.isln a).edge i).Perm (labelsOf chains (a, i))
  nodes : ∀ I ∈ stored, (∃ a ∈ levelChain isl.sl 0, (isl.sl.nodes a).key = some I.lo) ∧
    ∃ a ∈ levelChain isl.sl 0, (isl.sl.nodes a).key = some I.hi
  point : ∀ a ∈ levelChain isl.sl 0, ∀ k ∈ (isl.sl.nodes a).key, (isl.isln a).point.Perm
    ((stored.filter fun I => I.lo = I.hi ∧ I.lo = k).map Interval.data)
  nEnd : ∀ a ∈ levelChain isl.sl 0, ∀ k ∈ (isl.sl.nodes a).key,
    (isl.isln a).nEnd = stored.countP fun I => I.lo < I.hi ∧ I.hi = k
  used : ∀ a ∈ levelChain isl.sl 0, ∃ I ∈ stored,
    (isl.sl.nodes a).key = some I.lo ∨ (isl.sl.nodes a).key = some I.hi
  count : isl.nIntervals = stored.length

omit [DecidableEq δ] in
theorem Represents.shape {isl : TbxIsl κ δ} {l} {chains : List (Labelled κ δ)} {stored}
    (h : Represents isl l chains stored) : IslShape isl stored := by
  have hwf := h.chained.wf
  have hlevel : levelChain isl.sl 0 = l.map Entry.addr := by
    rw [hwf.levelChain_eq (Nat.zero_lt_of_lt hwf.max_lt), onLevel_zero]
  have hmem : ∀ e ∈ l, e.addr ∈ levelChain isl.sl 0 := fun e he =>
    hlevel ▸ mem_map_of_mem he
  have hentry : ∀ a ∈ levelChain isl.sl 0, ∃ e ∈ l, e.addr = a := fun a ha =>
    mem_map.mp (hlevel ▸ ha)
  have hkey : ∀ e ∈ l, (isl.sl.nodes e.addr).key = some e.key := fun e he => (hwf.node e he).1
  refine ⟨⟨chains, h.perm, fun c hc => ?_, fun a ha i hi => ?_⟩, fun I hI => ?_,
    fun a ha k hk => ?_, fun a ha k hk => ?_, fun a ha => ?_, h.count⟩
  · obtain ⟨e, he, f, hf, hlo, hhi, hp⟩ := h.chained.path c hc
    exact ⟨e.addr, hmem e he, f.addr, hmem f hf, hlo ▸ hkey e he, hhi ▸ hkey f hf, hp⟩
  · obtain ⟨e, he, rfl⟩ := hentry a ha
    exact h.chained.label e he i ((hwf.node e he).2 ▸ hi)
  · obtain ⟨_, ⟨e, he, hlo⟩, ⟨f, hf, hhi⟩⟩ := h.listed.ends I hI
    exact ⟨⟨e.addr, hmem e he, hlo ▸ hkey e he⟩, f.addr, hmem f hf, hhi ▸ hkey f hf⟩
  · obtain ⟨e, he, rfl⟩ := hentry a ha
    obtain rfl : e.key = k := some.inj ((hkey e he).symm.trans hk)
    exact h.listed.point e he
  · obtain ⟨e, he, rfl⟩ := hentry a ha
    obtain rfl : e.key = k := some.inj ((hkey e he).symm.trans hk)
    exact h.listed.nEnd e he
  · obtain ⟨e, he, rfl⟩ := hentry a ha
    obtain ⟨I, hI, hend⟩ := h.used e he
    refine ⟨I, hI, ?_⟩
    rw [hkey e he, some.injEq, some.injEq]
    exact hend.imp Eq.symm Eq.symm

/-- In every state of a run whose removals keep the chains, the list has the shape of the
intervals it stores. -/
theorem isl_shape_of_reachable {isl : TbxIsl κ δ} {stored : List (Interval κ δ)}
    (h : Reachable isl stored) : IslShape isl stored := by
  obtain ⟨l, chains, h⟩ := h.represents
  exact h.shape

/-- A point is taken out from under an interval. -/
theorem isl_shape_point_removed :
    IslShape (tbxIslRemove (tbxIslInsert (tbxIslInsert (tbxIslNew 2 : TbxIsl Nat Nat)
      1 9 10 1 0) 5 5 20 0 0) 5 5 20).1 [⟨1, 9, 10⟩] :=
  isl_shape_of_reachable (.remove ⟨5, 5, 20⟩
    (.insert 5 5 20 0 0 (.insert 1 9 10 1 0 (.new 2 (by decide)) (by decide)) (by decide))
    ⟨by decide, by decide, fun _ => by decide, fun _ => by decide⟩)

/-- `n_end` does not count points. -/
theorem isl_end_count_excludes_points :
    ¬∀ (isl : TbxIsl Nat Nat) (stored : List (Interval Nat Nat)), Reachable isl stored →
      ∀ a ∈ levelChain isl.sl 0, ∀ k ∈ (isl.sl.nodes a).key,
        (isl.isln a).nEnd = stored.countP fun I => I.hi = k := by
  intro h
  have hpoint := h _ _ (.insert 3 3 7 0 0 (.new 1 (by decide)) (by decide)) 1 (by decide) 3 rfl
  exact absurd hpoint (by decide)

-- A removal that does not keep the chains: the interval from 1 to 9 enters the node of 5 on
-- level 0 and leaves it on level 1. Without that node its edge ends at 7, and a search for 8
-- does not find it.
example :
    let isl := tbxIslInsert (tbxIslInsert (tbxIslInsert (tbxIslNew 2 : TbxIsl Nat Nat)
      5 5 20 1 0) 7 7 30 0 0) 1 9 10 1 0
    let isl' := tbxIslRemove isl 5 5 20
    isl'.2 = 0 ∧ islDrain isl 9 (tbxIslIterSearch isl (some 8) (some 8)) = some [10] ∧
      islDrain isl'.1 9 (tbxIslIterSearch isl'.1 (some 8) (some 8)) = some [] := by
  decide +kernel

variable (isl : TbxIsl κ δ) (lo hi : κ) (data : δ)

/-- What `tbx_isl_remove` hands to `data_free`: behind the search every way out does. -/
def islRemoveFrees : List δ := if nodeAt isl.sl lo = none then [] else [data]

omit [DecidableEq δ] in
@[simp] theorem dropIfEmpty_nIntervals (sn : Nat) (key : κ) :
    (dropIfEmpty isl sn key).nIntervals = isl.nIntervals := by
  rw [dropIfEmpty]
  split <;> rfl

variable {isl lo} in
theorem tbxIslRemove_of_none (h : nodeAt isl.sl lo = none) :
    tbxIslRemove isl lo hi data = (isl, 1) := by
  rcases hfind : findKey isl.sl lo with ⟨ptr, cmp⟩
  rw [tbxIslRemove, hfind]
  simp only [nodeAt, hfind] at h
  cases cmp with
  | lt => rfl
  | gt => rfl
  | eq =>
    have hnext : (isl.sl.nodes (ptr 0)).next 0 = none := h
    simp [hnext]

variable {isl lo} in
theorem tbxIslRemove_nIntervals {sn} (h : nodeAt isl.sl lo = some sn) :
    (tbxIslRemove isl lo hi data).1.nIntervals = isl.nIntervals - 1 := by
  rcases hfind : findKey isl.sl lo with ⟨ptr, cmp⟩
  simp only [nodeAt, hfind] at h
  split at h
  · rename_i hcmp
    rw [tbxIslRemove, hfind]
    simp only [hcmp, h]
    split_ifs <;> simp only [dropIfEmpty_nIntervals]
  · simp at h

/-- A removal returns 1, leaves every query, the number of intervals and every `n_end` as they
were, and does not free the data, exactly when no node has the lower end as its key. -/
theorem tbxIslRemove_atomic_iff :
    ((tbxIslRemove isl lo hi data).2 = 1 ∧
      (∀ fuel lo' hi', islDrain (tbxIslRemove isl lo hi data).1 fuel
          (tbxIslIterSearch (tbxIslRemove isl lo hi data).1 lo' hi') =
        islDrain isl fuel (tbxIslIterSearch isl lo' hi')) ∧
      (tbxIslRemove isl lo hi data).1.nIntervals = isl.nIntervals ∧
      (∀ v, ((tbxIslRemove isl lo hi data).1.isln v).nEnd = (isl.isln v).nEnd) ∧
      data ∉ islRemoveFrees isl lo data) ↔ nodeAt isl.sl lo = none := by
  constructor
  · rintro ⟨-, -, hcount, -⟩
    cases hnode : nodeAt isl.sl lo with
    | none => rfl
    | some sn =>
      rw [tbxIslRemove_nIntervals hi data hnode] at hcount
      omega
  · intro hnode
    simp only [tbxIslRemove_of_none hi data hnode, islRemoveFrees, hnode]
    simp

/-- With `[1, 3]` stored, the failed removal of other data from `1` to `3` lowers both counters
and frees that data. -/
theorem tbxIslRemove_fails_changed :
    let isl := tbxIslInsert (tbxIslNew 1 : TbxIsl Nat Nat) 1 3 10 0 0
    let isl' := tbxIslRemove isl 1 3 20
    isl'.2 = 1 ∧ isl.nIntervals = 1 ∧ isl'.1.nIntervals = 0 ∧
      nodeAt isl.sl 3 = some 1 ∧ (isl.isln 1).nEnd = 1 ∧ (isl'.1.isln 1).nEnd = 0 ∧
      islRemoveFrees isl 1 20 = [20] := by
  decide

end LStore.Toolbox
