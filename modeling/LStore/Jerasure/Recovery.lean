import LStore.Base.Fuel
import LStore.Jerasure.Stripe

/-!
# What the read of a stripe returns

The magics that the devices carry stem from earlier writes of the stripe: devices with the
same magic hold chunks of the same codeword, and a blank device holds its part of the zero
word (`Generations`). The checksum separates the words that occur when a recovery can only
arrive at a word with a carried magic by restoring the stripe written with it
(`Separates`). Under both, `readStripe_ok_iff` says which stripes are accepted and
`data_readStripe` what they are taken for: the stripe of the magic that wins the vote.
-/

namespace LStore.Jerasure

open Erasure List Vote
open Finset hiding disjoint_left mem_singleton mem_map map_map mem_filter

variable {n m cs : Nat} {plan : Mds n m (Chunk cs)} {bad : Finset (Fin (n + m))}
  {ptr base : Word n m cs} {d : Fin n → Chunk cs} {mg : Magic}

instance : Finite Segment.Byte := Finite.of_injective UInt8.toFin fun _ _ h => UInt8.toFin_inj.mp h

/-- In-place decoding leaves the buffers as the decoder's view. -/
theorem inPlace_decode (plan : Mds n m (Chunk cs)) (bad : Finset (Fin (n + m)))
    (ptr : Word n m cs) :
    (fun k => if k ∈ bad then plan.decode ptr bad k else ptr k) = plan.decode ptr bad := by
  funext k
  split_ifs with hk
  · rfl
  · rw [plan.decode_other ptr bad k hk]

/-- Buffers that differ from a codeword on the bad devices only pass all rounds. -/
theorem controlLoop_agrees {ctlMax} (hcard : bad.card + ctlMax ≤ m) (fuel start : Nat)
    (hstart : start < n + m) (hfuel : n + m ≤ start + fuel)
    (h : ∀ k, k ∉ bad → ptr k = plan.encode d k) :
    controlLoop plan bad ctlMax fuel start ptr = ⟨true, plan.encode d, plan.encode d⟩ := by
  induction fuel generalizing start ptr with
  | zero => omega
  | succ fuel ih =>
    rw [controlLoop]
    obtain ⟨control, hcontrol⟩ : ∃ l, l = ((List.finRange (n + m)).filter
      fun k => decide (k ∉ bad ∧ start ≤ k.val)).take ctlMax := ⟨_, rfl⟩
    have hgood : ∀ k ∈ control, k ∉ bad ∧ start ≤ k.val := by
      intro k hk
      rw [hcontrol] at hk
      simpa using mem_of_mem_take hk
    have hunion : (bad ∪ control.toFinset).card ≤ m := by
      have hlen : control.length ≤ ctlMax := by
        rw [hcontrol]
        exact length_take_le _ _
      have := card_union_le bad control.toFinset
      have := control.toFinset_card_le
      omega
    have hdecode : plan.decode ptr (bad ∪ control.toFinset) = plan.encode d :=
      plan.decode_eq_encode hunion fun k hk => h k fun hb => hk (mem_union_left _ hb)
    have hptr : (fun k => if k ∈ bad then plan.encode d k else ptr k) = plan.encode d := by
      funext k
      split_ifs with hk
      · rfl
      · rw [h k hk]
    have hmatch : (control.any fun k => decide (ptr k ≠ plan.encode d k)) = false := by
      rw [any_eq_false]
      intro k hk
      simpa using h k (hgood k hk).1
    simp only [← hcontrol, hdecode, hptr, hmatch, Bool.false_eq_true, if_false]
    -- the next round starts behind the last control
    split_ifs with hnext
    · cases hlast : control.getLast? with
      | none => simp [hlast] at hnext
      | some k =>
        have hk := (hgood k (mem_of_getLast? hlast)).2
        simp only [hlast, Option.map_some, Option.getD_some] at hnext
        exact ih (k.val + 1) hnext (by omega) fun _ _ => rfl
    · rfl

theorem jeraseControlCheck_agrees {magic} (hpos : 0 < n) (hcard : bad.card ≤ m)
    (h : ∀ k, k ∉ bad → ptr k = plan.encode d k)
    (hmagic : ∀ mg, magic = some mg → mg = jeCksumCalc (plan.encode d)) :
    jeraseControlCheck plan bad ptr magic = ⟨true, plan.encode d, plan.encode d⟩ := by
  cases magic with
  | none =>
    exact controlLoop_agrees (by omega) (n + m) 0 (by omega) (by omega) h
  | some mg =>
    have hmg : jeCksumCompare mg (plan.encode d) = true := decide_eq_true (hmagic mg rfl)
    rw [jeraseControlCheck]
    by_cases hbad : bad = ∅
    · have hptr : ptr = plan.encode d := funext fun k => h k (by simp [hbad])
      rw [if_pos hbad, hptr, hmg]
    · rw [if_neg hbad]
      simp only [inPlace_decode]
      rw [plan.decode_eq_encode hcard h, hmg]

/-- What a check with a checksum works on, and what it has seen when it passes. -/
theorem jeraseControlCheck_some (hbase : Decoded plan base ptr) (hcard : bad.card ≤ m) (mg : Magic) :
    Decoded plan base (jeraseControlCheck plan bad ptr (some mg)).eptr ∧
      (jeraseControlCheck plan bad ptr (some mg)).ptr =
        (jeraseControlCheck plan bad ptr (some mg)).eptr ∧
      ((jeraseControlCheck plan bad ptr (some mg)).ok = true →
        jeCksumCalc (jeraseControlCheck plan bad ptr (some mg)).eptr = mg) := by
  rw [jeraseControlCheck]
  split_ifs with hbad
  · exact ⟨hbase, rfl, fun h => (of_decide_eq_true h).symm⟩
  · exact ⟨.decode bad hbase hcard, inPlace_decode plan bad ptr, fun h => (of_decide_eq_true h).symm⟩

/-- Buffers that pass the rounds without a checksum agree with a codeword on the good devices. -/
theorem of_controlLoop (hcard : bad.card ≤ m) {fuel}
    (hok : (controlLoop plan bad (m - bad.card) (fuel + 1) 0 ptr).ok = true) :
    ∃ d, ∀ k, k ∉ bad → ptr k = plan.encode d k := by
  rw [controlLoop] at hok
  obtain ⟨control, hcontrol⟩ : ∃ l, l = ((List.finRange (n + m)).filter
    fun k => decide (k ∉ bad ∧ 0 ≤ k.val)).take (m - bad.card) := ⟨_, rfl⟩
  simp only [← hcontrol] at hok
  have hgood : ((List.finRange (n + m)).filter fun k => decide (k ∉ bad ∧ 0 ≤ k.val)).toFinset =
      badᶜ := by
    ext k
    simp
  have hnodup := (nodup_finRange (n + m)).filter fun k => decide (k ∉ bad ∧ 0 ≤ k.val)
  have hlen : ((List.finRange (n + m)).filter fun k => decide (k ∉ bad ∧ 0 ≤ k.val)).length =
      n + m - bad.card := by
    rw [← toFinset_card_of_nodup hnodup, hgood, card_compl, Fintype.card_fin]
  have hdisj : Disjoint bad control.toFinset := by
    rw [Finset.disjoint_left]
    intro k hk hmem
    rw [mem_toFinset, hcontrol] at hmem
    have := (mem_filter.mp (mem_of_mem_take hmem)).2
    simp [hk] at this
  have hsize : (bad ∪ control.toFinset).card = m := by
    rw [card_union_of_disjoint hdisj, toFinset_card_of_nodup, hcontrol,
      length_take, hlen]
    · omega
    · rw [hcontrol]
      exact hnodup.sublist (take_sublist _ _)
  obtain ⟨d, hd⟩ := plan.exists_encode hsize ptr
  have hdecode := plan.decode_eq_encode hsize.le hd
  rw [hdecode] at hok
  refine ⟨d, fun k hk => ?_⟩
  by_cases hmem : k ∈ control
  · by_contra hne
    have hany : (control.any fun k => decide (ptr k ≠ plan.encode d k)) = true :=
      any_eq_true.mpr ⟨k, hmem, decide_eq_true hne⟩
    rw [if_pos hany] at hok
    cases hok
  · exact hd k (by simp [hk, hmem])

/-- A round of the check without a checksum: the device to go on with and the buffers, or the
outcome. -/
def controlRound (plan : Mds n m (Chunk cs)) (bad : Finset (Fin (n + m))) (ctlMax : Nat)
    (s : Nat × Word n m cs) : Except Base.Fuel.Fault ((Nat × Word n m cs) ⊕ Check n m cs) :=
  let control :=
    ((List.finRange (n + m)).filter fun k => decide (k ∉ bad ∧ s.1 ≤ k.val)).take ctlMax
  let eptr := plan.decode s.2 (bad ∪ control.toFinset)
  let ptr' : Word n m cs := fun k => if k ∈ bad then eptr k else s.2 k
  if control.any fun k => decide (s.2 k ≠ eptr k) then .ok (.inr ⟨false, ptr', eptr⟩)
  else
    let next := (control.getLast?.map fun k => k.val + 1).getD (n + m)
    if next < n + m then .ok (.inl (next, ptr')) else .ok (.inr ⟨true, ptr', eptr⟩)

/-- Every round passes a device, so a round for each device is enough. -/
theorem loop_controlRound {ctlMax fuel fuel' start} (hstart : start < n + m)
    (hfuel : n + m ≤ start + fuel) (hfuel' : n + m ≤ start + fuel') :
    Base.Fuel.loop (controlRound plan bad ctlMax) fuel (start, ptr) =
      .ok (controlLoop plan bad ctlMax fuel' start ptr) := by
  induction fuel generalizing fuel' start ptr with
  | zero => omega
  | succ fuel ih =>
    obtain ⟨fuel', rfl⟩ : ∃ f, fuel' = f + 1 := ⟨fuel' - 1, by omega⟩
    rw [Base.Fuel.loop, controlRound, controlLoop]
    generalize hcontrol : ((List.finRange (n + m)).filter
      fun k => decide (k ∉ bad ∧ start ≤ k.val)).take ctlMax = control
    dsimp only
    split_ifs with hany hnext
    · rfl
    · cases hlast : control.getLast? with
      | none => simp [hlast] at hnext
      | some k =>
        have hk : k ∉ bad ∧ start ≤ k.val := by
          have hmem := mem_of_getLast? hlast
          rw [← hcontrol] at hmem
          simpa using mem_of_mem_take hmem
        simp only [hlast, Option.map_some, Option.getD_some] at hnext ⊢
        exact ih hnext (by omega) (by omega)
    · rfl

/-- Without a checksum the check ends. While a control is left it passes exactly when the good
chunks are those of a codeword, and then it leaves that codeword. -/
theorem controlCheck_none_iff (plan : Mds n m (Chunk cs)) (bad : Finset (Fin (n + m)))
    (ptr : Word n m cs) (hm : 1 ≤ m) (hcard : bad.card ≤ m) :
    (∀ fuel, n + m ≤ fuel → Base.Fuel.loop (controlRound plan bad (m - bad.card)) fuel (0, ptr) =
        .ok (jeraseControlCheck plan bad ptr none)) ∧
      (bad.card < m →
        ((jeraseControlCheck plan bad ptr none).ok = true ↔
          ∃ d, ∀ k, k ∉ bad → ptr k = plan.encode d k) ∧
        ∀ d, (∀ k, k ∉ bad → ptr k = plan.encode d k) →
          (jeraseControlCheck plan bad ptr none).eptr = plan.encode d) := by
  have hagrees : ∀ d, (∀ k, k ∉ bad → ptr k = plan.encode d k) →
      jeraseControlCheck plan bad ptr none = ⟨true, plan.encode d, plan.encode d⟩ := fun d hd =>
    controlLoop_agrees (by omega) (n + m) 0 (by omega) (by omega) hd
  refine ⟨fun fuel hfuel => loop_controlRound (by omega) (by omega) (by omega), fun _ => ?_⟩
  refine ⟨⟨fun hok => ?_, fun ⟨d, hd⟩ => by rw [hagrees d hd]⟩, fun d hd => by rw [hagrees d hd]⟩
  obtain ⟨fuel, hfuel⟩ : ∃ f, n + m = f + 1 := ⟨n + m - 1, by omega⟩
  have hrounds : ∀ f, f = n + m → (controlLoop plan bad (m - bad.card) f 0 ptr).ok = true := by
    rintro f rfl
    exact hok
  exact of_controlLoop hcard (hrounds (fuel + 1) hfuel.symm)

theorem controlCheck_none_mirror :
    let plan := mirror (Chunk 1)
    let ptr : Word 1 1 1 := fun k _ => if k.val = 0 then 3 else 4
    (jeraseControlCheck plan ∅ ptr none).ok ≠ true := by
  intro plan ptr hok
  obtain ⟨d, hd⟩ := ((controlCheck_none_iff plan ∅ ptr le_rfl (by decide)).2 (by decide)).1.mp hok
  have hsame : ptr 0 = ptr 1 := (hd 0 (by simp)).trans (hd 1 (by simp)).symm
  exact absurd (congrFun hsame 0) (by decide)

theorem length_of_mem_choices {α : Type*} {r} {xs c : List α} (h : c ∈ choices r xs) :
    c.length = r := by
  induction r, xs using choices.induct generalizing c with
  | case1 xs =>
    rw [choices, mem_singleton] at h
    rw [h, length_nil]
  | case2 r => simp [choices] at h
  | case3 r x xs ih ih' =>
    rw [choices, mem_append, mem_map] at h
    rcases h with ⟨c', hc', rfl⟩ | h
    · rw [length_cons, ih hc']
    · exact ih' h

variable {magic : Option Magic} {found : Finset (Fin (n + m))} {eptr : Word n m cs}

/-- A set that passes was checked as the bad devices. -/
theorem of_jeraseBruteRecurse {nBad : Nat}
    (h : jeraseBruteRecurse plan ptr magic nBad = some (found, eptr)) :
    found.card ≤ nBad ∧ (jeraseControlCheck plan found ptr magic).ok = true ∧
      eptr = (jeraseControlCheck plan found ptr magic).eptr := by
  obtain ⟨index, hindex, hcheck⟩ := exists_of_findSome?_eq_some h
  by_cases hok : (jeraseControlCheck plan index.toFinset ptr magic).ok = true
  · rw [if_pos hok] at hcheck
    cases hcheck
    refine ⟨?_, hok, rfl⟩
    rw [← length_of_mem_choices hindex]
    exact index.toFinset_card_le
  · rw [if_neg hok] at hcheck
    cases hcheck

/-- A successful search ends with a check that passes, on the buffers as they were given or
as the first check left them. -/
theorem of_jeraseBruteRecovery (hcard : bad.card ≤ m)
    (h : (jeraseBruteRecovery plan bad ptr magic).1 = some (found, eptr)) :
    found.card ≤ m ∧ ∃ x, (x = ptr ∨ x = (jeraseControlCheck plan bad ptr magic).ptr) ∧
      (jeraseControlCheck plan found x magic).ok = true ∧
      eptr = (jeraseControlCheck plan found x magic).eptr := by
  rw [jeraseBruteRecovery] at h
  by_cases hok : (jeraseControlCheck plan bad ptr magic).ok = true
  · simp only [if_pos hok, Option.some.injEq, Prod.mk.injEq] at h
    obtain ⟨rfl, rfl⟩ := h
    exact ⟨hcard, ptr, .inl rfl, hok, rfl⟩
  · simp only [if_neg hok] at h
    obtain ⟨nBad, hmem, htrial⟩ := exists_of_findSome?_eq_some h
    have hle : nBad ≤ m := by
      rw [mem_range'_1] at hmem
      split at hmem <;> omega
    obtain ⟨hfound, hcheck, heptr⟩ := of_jeraseBruteRecurse htrial
    exact ⟨Nat.le_trans hfound hle, _, .inr rfl, hcheck, heptr⟩

/-- A search by checksum ends with a word that has it. -/
theorem jeraseBruteRecovery_some (hbase : Decoded plan base ptr) (hcard : bad.card ≤ m)
    (h : (jeraseBruteRecovery plan bad ptr (some mg)).1 = some (found, eptr)) :
    Decoded plan base eptr ∧ jeCksumCalc eptr = mg := by
  obtain ⟨hfound, x, hx, hcheck, rfl⟩ := of_jeraseBruteRecovery hcard h
  have hxdec : Decoded plan base x := by
    rcases hx with rfl | rfl
    · exact hbase
    · obtain ⟨hd, hp, -⟩ := jeraseControlCheck_some hbase hcard mg
      rw [hp]
      exact hd
  obtain ⟨hd, -, hs⟩ := jeraseControlCheck_some hxdec hfound mg
  exact ⟨hd, hs hcheck⟩

variable {brute : Option (Finset (Fin (n + m)))}

/-- The last bad map that worked marks no more devices than the code can restore. -/
def Small (brute : Option (Finset (Fin (n + m)))) : Prop := ∀ b ∈ brute, b.card ≤ m

theorem card_getD (hbrute : Small brute) (hcard : bad.card ≤ m) : (brute.getD bad).card ≤ m := by
  cases brute with
  | none => exact hcard
  | some b => exact hbrute b rfl

theorem small_recover (hbrute : Small brute) (hcard : bad.card ≤ m) (ptr : Word n m cs)
    (magic : Option Magic) : Small (recover plan brute bad ptr magic).brute := by
  rw [recover]
  split_ifs with hok
  · exact hbrute
  · split
    · next found eptr ptr' heq =>
        have hsome : (jeraseBruteRecovery plan (brute.getD bad)
            (jeraseControlCheck plan bad ptr magic).ptr magic).1 = some (found, eptr) := by
          rw [heq]
        intro b hb
        cases hb
        exact (of_jeraseBruteRecovery (card_getD hbrute hcard) hsome).1
    · exact hbrute

/-- A stripe that agrees with a codeword on the good devices is recovered as it. -/
theorem recover_agrees (hpos : 0 < n) (hcard : bad.card ≤ m)
    (h : ∀ k, k ∉ bad → ptr k = plan.encode d k)
    (hmagic : ∀ mg, magic = some mg → mg = jeCksumCalc (plan.encode d)) :
    recover plan brute bad ptr magic = ⟨true, plan.encode d, brute⟩ := by
  rw [recover]
  simp [jeraseControlCheck_agrees hpos hcard h hmagic]

/-- A stripe recovered by its checksum is the data of a word with that checksum. -/
theorem of_recover_some (hbrute : Small brute) (hcard : bad.card ≤ m)
    (hok : (recover plan brute bad ptr (some mg)).ok = true) :
    ∃ x, Decoded plan ptr x ∧ jeCksumCalc x = mg ∧
      data (recover plan brute bad ptr (some mg)).word = data x := by
  obtain ⟨hdec, hptr, hsum⟩ := jeraseControlCheck_some (.refl (w := ptr)) hcard mg
  rw [recover] at hok ⊢
  by_cases hfirst : (jeraseControlCheck plan bad ptr (some mg)).ok = true
  · simp only [if_pos hfirst]
    exact ⟨_, hdec, hsum hfirst, by rw [hptr]⟩
  · simp only [if_neg hfirst] at hok ⊢
    split at hok
    · next found eptr ptr' heq =>
        have hsome : (jeraseBruteRecovery plan (brute.getD bad)
            (jeraseControlCheck plan bad ptr (some mg)).ptr (some mg)).1 = some (found, eptr) := by
          rw [heq]
        rw [← hptr] at hdec
        obtain ⟨hd, hs⟩ := jeraseBruteRecovery_some hdec (card_getD hbrute hcard) hsome
        exact ⟨_, hd, hs, funext fun i => if_pos i.isLt⟩
    · cases hok

variable {cells : Fin (n + m) → Cell cs} {win : Magic}

/-- The magics of a stripe, in device order. -/
def magics (cells : Fin (n + m) → Cell cs) : List Magic :=
  (List.finRange (n + m)).map fun k => (cells k).magic

/-- The devices that carry a magic. -/
def holders (cells : Fin (n + m) → Cell cs) (mg : Magic) : Finset (Fin (n + m)) :=
  Finset.univ.filter fun k => (cells k).magic = mg

@[simp] theorem mem_holders {k} : k ∈ holders cells mg ↔ (cells k).magic = mg := by
  simp [holders]

variable (cells) (mg)

theorem votes_fst : (votes cells).map Prod.fst = magics cells := by
  rw [votes, magics, map_map]
  rfl

theorem voters_votes :
    Vote.voters (votes cells) mg =
      (List.finRange (n + m)).filter fun k => decide ((cells k).magic = mg) := by
  rw [voters, votes, filter_map, map_map]
  exact map_id _

theorem toFinset_voters : (Vote.voters (votes cells) mg).toFinset = holders cells mg := by
  ext k
  simp [voters_votes]

theorem nodup_voters : (Vote.voters (votes cells) mg).Nodup := by
  rw [voters_votes]
  exact (nodup_finRange _).filter _

theorem length_voters_votes : (Vote.voters (votes cells) mg).length = (holders cells mg).card := by
  rw [← toFinset_voters, toFinset_card_of_nodup (nodup_voters mg cells)]

theorem count_magics : (magics cells).count mg = (holders cells mg).card := by
  rw [← votes_fst, ← length_voters, length_voters_votes]

theorem exists_leads (hpos : 0 < n) (cells : Fin (n + m) → Cell cs) :
    ∃ win, Vote.Leads (magics cells) win := by
  have hne : votes cells ≠ [] := by
    rw [Ne, ← length_eq_zero_iff, votes, length_map, length_finRange]
    omega
  obtain ⟨win, hwin, -⟩ := leader_table hne
  exact ⟨win, votes_fst cells ▸ hwin⟩

variable {cells} {mg}

theorem leader_votes (hwin : Vote.Leads (magics cells) win) :
    Vote.leader (Vote.table (votes cells)) = some (win, Vote.voters (votes cells) win) := by
  have hne : votes cells ≠ [] := by
    rintro heq
    have hmem := hwin.1
    rw [← votes_fst, heq] at hmem
    simp at hmem
  obtain ⟨win', hwin', hlead⟩ := leader_table hne
  rw [votes_fst] at hwin'
  rw [hwin.unique hwin', hlead]

/-- The devices of the other groups. -/
theorem bad_votes (cells : Fin (n + m) → Cell cs) (win : Magic) :
    (((Vote.table (votes cells)).filter fun e => decide (e.1 ≠ win)).flatMap Prod.snd).toFinset =
      (holders cells win)ᶜ := by
  have htable := tabulates_table (votes cells)
  ext k
  simp only [mem_toFinset, mem_flatMap, mem_filter, mem_compl, mem_holders]
  constructor
  · rintro ⟨e, ⟨he, hne⟩, hk⟩
    rw [((htable.mem_iff e).mp he).2, voters_votes, mem_filter] at hk
    rw [of_decide_eq_true hk.2]
    exact of_decide_eq_true hne
  · intro hne
    refine ⟨((cells k).magic, voters (votes cells) (cells k).magic),
      ⟨(htable.mem_iff _).mpr ⟨?_, rfl⟩, decide_eq_true hne⟩, ?_⟩
    · rw [votes_fst]
      exact mem_map_of_mem (mem_finRange k)
    · simp [voters_votes]

theorem card_compl_holders (cells : Fin (n + m) → Cell cs) (win : Magic) :
    (holders cells win)ᶜ.card + (holders cells win).card = n + m := by
  rw [card_compl_add_card, Fintype.card_fin]

/-- All data devices carry the magic. -/
def AllData (cells : Fin (n + m) → Cell cs) (win : Magic) : Prop :=
  ∀ i : Fin n, (cells (Fin.castAdd m i)).magic = win

instance (cells : Fin (n + m) → Cell cs) (win : Magic) : Decidable (AllData cells win) :=
  inferInstanceAs (Decidable (∀ _, _))

/-- Counting the data devices of a group. -/
theorem data_voters_iff (cells : Fin (n + m) → Cell cs) (win : Magic) :
    ((Vote.voters (votes cells) win).filter fun k => decide (k.val < n)).length = n ↔
      AllData cells win := by
  obtain ⟨front, hfront⟩ : ∃ f : Finset (Fin (n + m)),
    f = Finset.univ.map (Fin.castAddEmb m) := ⟨_, rfl⟩
  have hmem : ∀ k : Fin (n + m), k ∈ front ↔ k.val < n := by
    intro k
    rw [hfront, Finset.mem_map]
    constructor
    · rintro ⟨i, -, rfl⟩
      exact i.isLt
    · intro hk
      exact ⟨⟨k.val, hk⟩, mem_univ _, rfl⟩
  have hcard : front.card = n := by
    rw [hfront, card_map, card_univ, Fintype.card_fin]
  have hlen : ((voters (votes cells) win).filter fun k => decide (k.val < n)).length =
      (front ∩ holders cells win).card := by
    rw [← toFinset_card_of_nodup ((nodup_voters win cells).filter _)]
    congr 1
    ext k
    rw [mem_toFinset, mem_filter, ← mem_toFinset, toFinset_voters, mem_inter,
      hmem, decide_eq_true_iff, and_comm]
  rw [hlen]
  constructor
  · intro h i
    have hall : front ∩ holders cells win = front :=
      eq_of_subset_of_card_le inter_subset_left (by omega)
    have hi : Fin.castAdd m i ∈ front := (hmem _).mpr i.isLt
    rw [← hall] at hi
    exact mem_holders.mp (mem_inter.mp hi).2
  · intro h
    have hall : front ∩ holders cells win = front := by
      rw [inter_eq_left]
      intro k hk
      exact mem_holders.mpr (h ⟨k.val, (hmem k).mp hk⟩)
    rw [hall, hcard]

variable {s : Segjerase n m cs} {errorCode : Nat} {gen : Magic → Fin n → Chunk cs}

variable {devs : List (Fin (n + m))}

/-- Devices with the same magic hold chunks of the stripe written with it, and a zero magic
stands for the zero stripe. -/
structure Generations (plan : Mds n m (Chunk cs)) (gen : Magic → Fin n → Chunk cs)
    (cells : Fin (n + m) → Cell cs) : Prop where
  blank : gen 0 = 0
  chunk : ∀ k, (cells k).chunk = plan.encode (gen (cells k).magic) k

/-- A word that decoding can make of the chunks has the checksum of a carried magic only if
it is the stripe written with that magic. -/
def Separates (plan : Mds n m (Chunk cs)) (gen : Magic → Fin n → Chunk cs)
    (cells : Fin (n + m) → Cell cs) : Prop :=
  ∀ x, Decoded plan (fun k => (cells k).chunk) x → ∀ k, jeCksumCalc x = (cells k).magic →
    (cells k).magic ≠ 0 ∧ x = plan.encode (gen (cells k).magic)

/-- The stripe is checked against the winning magic. -/
def Verified (s : Segjerase n m cs) (errorCode : Nat) (cells : Fin (n + m) → Cell cs)
    (win : Magic) : Prop :=
  s.magicCksum = true ∧ (paranoidMode s errorCode = true ∨ ¬AllData cells win)

theorem Generations.agrees (hgen : Generations plan gen cells) (win : Magic) :
    ∀ k, k ∉ (holders cells win)ᶜ → (cells k).chunk = plan.encode (gen win) k := by
  intro k hk
  have hmagic : (cells k).magic = win := by simpa using hk
  rw [hgen.chunk k, hmagic]

theorem magic_of_card (h : (holders cells win).card = n + m) (k : Fin (n + m)) :
    (cells k).magic = win := by
  have huniv : holders cells win = Finset.univ := eq_univ_of_card _ (by rw [h, Fintype.card_fin])
  exact mem_holders.mp (huniv ▸ mem_univ k)

/-- The verdict in terms of the magics. -/
theorem Generations.dataOk_eq (hgen : Generations plan gen cells) (errorCode : Nat)
    (hwin : Vote.Leads (magics cells) win) :
    dataOk errorCode cells win (Vote.voters (votes cells) win) =
      if ∀ k, (cells k).magic = 0 then .empty
      else if AllData cells win then .good else .missing := by
  rw [dataOk, length_voters_votes]
  by_cases hall : (holders cells win).card = n + m
  · have hevery := magic_of_card hall
    have hdata : AllData cells win := fun i => hevery _
    obtain ⟨k₀, -⟩ := mem_map.mp hwin.1
    rw [if_neg (by simpa using hall), if_pos hdata]
    by_cases hzero : win = 0
    · have hblank : ((List.finRange (n + m)).any fun k => sjNonzero (cells k).chunk) = false := by
        rw [any_eq_false]
        intro k _
        have hchunk : (cells k).chunk = 0 := by
          rw [hgen.chunk k, hevery k, hzero, hgen.blank, plan.encode_zero]
          rfl
        simp [sjNonzero, hchunk]
      rw [if_pos hzero, hblank, if_pos fun k => (hevery k).trans hzero]
      rfl
    · rw [if_neg hzero, if_neg fun h => hzero ((hevery k₀).symm.trans (h k₀))]
  · have hnot : ¬∀ k, (cells k).magic = 0 := by
      intro h
      apply hall
      obtain ⟨k, -, hk⟩ := mem_map.mp hwin.1
      have huniv : holders cells win = Finset.univ := by
        ext j
        simp [h j, ← hk, h k]
      rw [huniv, card_univ, Fintype.card_fin]
    rw [if_pos hall, if_neg hnot]
    by_cases hdata : AllData cells win
    · rw [if_pos hdata, if_neg (by simpa using (data_voters_iff cells win).mpr hdata)]
    · rw [if_neg hdata, if_pos (mt (data_voters_iff cells win).mp hdata)]

/-- A group with all data devices has enough devices. -/
theorem AllData.le_card (h : AllData cells win) : n ≤ (holders cells win).card := by
  have hsub : Finset.univ.map (Fin.castAddEmb m) ⊆ holders cells win := by
    intro k hk
    obtain ⟨i, -, rfl⟩ := Finset.mem_map.mp hk
    exact mem_holders.mpr (h i)
  have := card_le_card hsub
  rwa [card_map, card_univ, Fintype.card_fin] at this

/-- The recovery of a stripe from the devices with the winning magic. -/
def recoverFrom (s : Segjerase n m cs) (brute : Option (Finset (Fin (n + m))))
    (cells : Fin (n + m) → Cell cs) (win : Magic) :=
  recover s.plan brute (holders cells win)ᶜ (fun k => (cells k).chunk)
    (if s.magicCksum then some win else none)

/-- The recovery of a stripe whose winning magic has enough devices. -/
theorem recover_quorum (hpos : 0 < n) (hgen : Generations s.plan gen cells)
    (hsep : Separates s.plan gen cells) (hbrute : Small brute)
    (hwin : Vote.Leads (magics cells) win) (hcard : n ≤ (holders cells win).card) :
    ((recoverFrom s brute cells win).ok = true ↔
      (s.magicCksum = true → win = jeCksumCalc (s.plan.encode (gen win)))) ∧
    ((recoverFrom s brute cells win).ok = true →
      data (recoverFrom s brute cells win).word = gen win) := by
  unfold recoverFrom
  have hbad : (holders cells win)ᶜ.card ≤ m := by
    have := card_compl_holders cells win
    omega
  have hagrees := hgen.agrees win
  obtain ⟨k, -, hk⟩ := mem_map.mp hwin.1
  by_cases hsum : s.magicCksum = true → win = jeCksumCalc (s.plan.encode (gen win))
  · rw [recover_agrees hpos hbad hagrees (by
      intro mg hmg
      obtain ⟨hc, ⟨⟩⟩ := Option.ite_none_right_eq_some.mp hmg
      exact hsum hc)]
    exact ⟨⟨fun _ => hsum, fun _ => rfl⟩, fun _ => s.plan.data_encode _⟩
  · obtain ⟨hc, hne⟩ := Classical.not_imp.mp hsum
    rw [if_pos hc]
    have hfail : ¬(recover s.plan brute (holders cells win)ᶜ (fun k => (cells k).chunk)
        (some win)).ok = true := by
      intro hok
      obtain ⟨x, hx, hxsum, -⟩ := of_recover_some hbrute hbad hok
      obtain ⟨-, hxeq⟩ := hsep x hx k (hxsum.trans hk.symm)
      rw [hk] at hxeq
      exact hne (by rw [← hxeq, hxsum])
    exact ⟨⟨fun hok => absurd hok hfail, fun h => absurd h hsum⟩, fun hok => absurd hok hfail⟩

/-- The stripes that a read accepts. -/
def Accepts (s : Segjerase n m cs) (errorCode : Nat) (cells : Fin (n + m) → Cell cs)
    (gen : Magic → Fin n → Chunk cs) (win : Magic) : Prop :=
  (∀ k, (cells k).magic = 0) ∨
    n ≤ (holders cells win).card ∧
      (Verified s errorCode cells win → win = jeCksumCalc (s.plan.encode (gen win)))

/-- The treatment of a stripe, by its verdict. -/
theorem readStripe_eq (hwin : Vote.Leads (magics cells) win) :
    readStripe s errorCode brute cells =
      match dataOk errorCode cells win (Vote.voters (votes cells) win) with
      | .good =>
        if paranoidMode s errorCode then recoverFrom s brute cells win
        else ⟨true, fun k => (cells k).chunk, brute⟩
      | .empty => ⟨true, fun k => if k.val < n then 0 else (cells k).chunk, brute⟩
      | .missing =>
        if (holders cells win).card < n then ⟨false, fun k => (cells k).chunk, brute⟩
        else recoverFrom s brute cells win := by
  rw [readStripe]
  simp only [leader_votes hwin, bad_votes, length_voters_votes]
  rfl

variable (errorCode) in
/-- A stripe is accepted for what was written with the winning magic, or not at all. -/
theorem readStripe_spec (hpos : 0 < n) (hgen : Generations s.plan gen cells)
    (hsep : Separates s.plan gen cells) (hbrute : Small brute)
    (hwin : Vote.Leads (magics cells) win) :
    ((readStripe s errorCode brute cells).ok = true ↔ Accepts s errorCode cells gen win) ∧
    ((readStripe s errorCode brute cells).ok = true →
      data (readStripe s errorCode brute cells).word = gen win) := by
  rw [readStripe_eq hwin]
  by_cases hzero : ∀ k, (cells k).magic = 0
  · have hverdict := hgen.dataOk_eq errorCode hwin
    rw [if_pos hzero] at hverdict
    obtain ⟨k, -, hk⟩ := mem_map.mp hwin.1
    have hwin0 : win = 0 := hk.symm.trans (hzero k)
    simp only [hverdict]
    refine ⟨⟨fun _ => .inl hzero, fun _ => trivial⟩, fun _ => ?_⟩
    rw [hwin0, hgen.blank]
    funext i
    exact if_pos i.isLt
  · have haccepts : Accepts s errorCode cells gen win ↔ n ≤ (holders cells win).card ∧
        (Verified s errorCode cells win → win = jeCksumCalc (s.plan.encode (gen win))) :=
      or_iff_right hzero
    have hverdict := hgen.dataOk_eq errorCode hwin
    rw [haccepts]
    split_ifs at hverdict with hdata
    · have hverified : Verified s errorCode cells win ↔
          s.magicCksum = true ∧ paranoidMode s errorCode = true := by
        simp [Verified, hdata]
      simp only [hverdict, hverified]
      by_cases hpar : paranoidMode s errorCode = true
      · rw [if_pos hpar]
        obtain ⟨hok, hword⟩ := recover_quorum hpos hgen hsep hbrute hwin hdata.le_card
        refine ⟨?_, hword⟩
        rw [hok]
        exact ⟨fun h => ⟨hdata.le_card, fun hc => h hc.1⟩, fun h hc => h.2 ⟨hc, hpar⟩⟩
      · rw [if_neg hpar]
        refine ⟨⟨fun _ => ⟨hdata.le_card, fun hc => absurd hc.2 hpar⟩, fun _ => rfl⟩, fun _ => ?_⟩
        funext i
        change (cells (Fin.castAdd m i)).chunk = _
        rw [hgen.chunk, hdata i, s.plan.encode_data]
    · have hverified : Verified s errorCode cells win ↔ s.magicCksum = true := by
        simp [Verified, hdata]
      simp only [hverdict, hverified]
      by_cases hcard : (holders cells win).card < n
      · rw [if_pos hcard]
        refine ⟨⟨fun h => absurd h Bool.false_ne_true, fun h => ?_⟩,
          fun h => absurd h Bool.false_ne_true⟩
        omega
      · rw [if_neg hcard]
        obtain ⟨hok, hword⟩ := recover_quorum hpos hgen hsep hbrute hwin (by omega)
        refine ⟨?_, hword⟩
        rw [hok]
        exact ⟨fun h => ⟨by omega, h⟩, fun h => h.2⟩

theorem le_length_of_good (h : dataOk errorCode cells win devs = .good) : n ≤ devs.length := by
  rw [dataOk] at h
  by_cases hlen : devs.length = n + m
  · omega
  · rw [if_pos hlen] at h
    by_cases hfilter : (devs.filter fun k => decide (k.val < n)).length = n
    · have := length_filter_le (fun k : Fin (n + m) => decide (k.val < n)) devs
      omega
    · rw [if_pos hfilter] at h
      cases h

theorem chunk_of_empty (h : dataOk errorCode cells win devs = .empty) (k : Fin (n + m)) :
    (cells k).chunk = 0 := by
  rw [dataOk] at h
  split at h
  · split at h <;> cases h
  · split at h
    · split at h
      · split at h <;> cases h
      · next hnone =>
          have hk := any_eq_false.mp (Bool.eq_false_iff.mpr hnone) k (mem_finRange k)
          have hchunk : ∀ i, (cells k).chunk i = 0 := by simpa [sjNonzero] using hk
          exact funext hchunk
    · cases h

theorem small_readStripe (hpos : 0 < n) (s : Segjerase n m cs) (errorCode : Nat)
    (hbrute : Small brute) (cells : Fin (n + m) → Cell cs) :
    Small (readStripe s errorCode brute cells).brute := by
  obtain ⟨win, hwin⟩ := exists_leads hpos cells
  have hrec : n ≤ (holders cells win).card → ∀ ptr magic,
      Small (recover s.plan brute (holders cells win)ᶜ ptr magic).brute := by
    intro hcard
    have := card_compl_holders cells win
    exact small_recover hbrute (by omega)
  rw [readStripe_eq hwin]
  cases hverdict : dataOk errorCode cells win (voters (votes cells) win) with
  | good =>
    have hcard := le_length_of_good hverdict
    rw [length_voters_votes] at hcard
    dsimp only
    split
    · exact hrec hcard _ _
    · exact hbrute
  | empty => exact hbrute
  | missing =>
    dsimp only
    split
    · exact hbrute
    · exact hrec (by omega) _ _

/-- A stripe that carries its own checksum on every device is returned as it is. -/
theorem readStripe_clean (hpos : 0 < n)
    (hcells : ∀ k, cells k = ⟨jeCksumCalc (s.plan.encode d), s.plan.encode d k⟩) :
    (readStripe s 0 brute cells).ok = true ∧ data (readStripe s 0 brute cells).word = d := by
  obtain ⟨win, hwin⟩ := exists_leads hpos cells
  have hmagic : ∀ k, (cells k).magic = win := by
    obtain ⟨k₀, -, hk₀⟩ := mem_map.mp hwin.1
    intro k
    rw [← hk₀, hcells k, hcells k₀]
  have hchunk : (fun k => (cells k).chunk) = s.plan.encode d := funext fun k => by rw [hcells k]
  have hsum : win = jeCksumCalc (s.plan.encode d) := by
    rw [← hmagic ⟨0, by omega⟩, hcells]
  have hnone : (holders cells win)ᶜ = ∅ := by
    ext k
    simp [hmagic k]
  have hcard : (holders cells win).card = n + m := by
    have := card_compl_holders cells win
    rw [hnone] at this
    simpa using this
  have hrec : recoverFrom s brute cells win = ⟨true, s.plan.encode d, brute⟩ := by
    refine recover_agrees hpos (by simp [hnone]) (fun k _ => by rw [hcells k]) ?_
    intro mg hmg
    obtain ⟨-, ⟨⟩⟩ := Option.ite_none_right_eq_some.mp hmg
    exact hsum
  rw [readStripe_eq hwin]
  cases hverdict : dataOk 0 cells win (voters (votes cells) win) with
  | good =>
    by_cases hpar : paranoidMode s 0 = true
    · simp only [if_pos hpar, hrec]
      exact ⟨trivial, s.plan.data_encode d⟩
    · simp only [if_neg hpar, hchunk]
      exact ⟨trivial, s.plan.data_encode d⟩
  | empty =>
    refine ⟨rfl, ?_⟩
    funext i
    have hi := chunk_of_empty hverdict (Fin.castAdd m i)
    rw [hcells] at hi
    calc (if (Fin.castAdd m i).val < n then (0 : Chunk cs) else _) = 0 := if_pos i.isLt
      _ = s.plan.encode d (Fin.castAdd m i) := hi.symm
      _ = d i := s.plan.encode_data d i
  | missing =>
    simp only [if_neg (show ¬(holders cells win).card < n by omega), hrec]
    exact ⟨trivial, s.plan.data_encode d⟩

end LStore.Jerasure
