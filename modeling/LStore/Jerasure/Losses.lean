import LStore.Jerasure.ReadSpec
import LStore.Jerasure.WriteSpec
import Mathlib.Tactic.FinCases

/-!
# Lost devices

A device that fails a write keeps what it held before, and one that fails a read is seen
blank. Both vote on the magic of a stripe like any other device. A read returns the newly
written data exactly when the magic that wins the vote stands for it (`NewWins`), which the
number of lost devices alone does not ensure: as soon as there are as many parity as data
devices, the lost ones can win.
-/

namespace LStore.Jerasure

open List
open Finset hiding mem_singleton

open Erasure

variable {n m cs : Nat} {q r : RwReq} {s : Segjerase n m cs} {child : ChildRead cs} {mem : Mem}

/-- A stripe of the request. -/
def RwReq.Covers (n cs : Nat) (q : RwReq) (c : Nat) : Prop :=
  ∃ v ∈ q.iov, ∃ u < nstripes n cs v, firstStripe n cs v + u = c

/-- The replies of the child segment when the reads of some devices fail. -/
def failing (n m : Nat) (lost : Finset (Fin (n + m))) (store : Nat → Cell cs) : ChildRead cs where
  cell p := if ∃ k ∈ lost, k.val = p % (n + m) then Cell.blank else store p
  errorCode := lost.card

/-- What a read sees of a stripe with new data `d`, when the devices in `stale` have failed
the write and those in `lost` fail the read. -/
def seen (plan : Mds n m (Chunk cs)) (d : Fin n → Chunk cs) (old : Fin (n + m) → Cell cs)
    (stale lost : Finset (Fin (n + m))) (k : Fin (n + m)) : Cell cs :=
  if k ∈ lost then Cell.blank
  else if k ∈ stale then old k
  else ⟨jeCksumCalc (plan.encode d), plan.encode d k⟩

/-- Adler-32 separates the words that occur: the stripe just written and the words that
decoding can make of the chunks. One of them has the checksum of a magic that is around only
if it is the stripe that was written with it. -/
def Adler32Separates (plan : Mds n m (Chunk cs)) (gen : Magic → Fin n → Chunk cs)
    (d : Fin n → Chunk cs) (cells : Fin (n + m) → Cell cs) : Prop :=
  ∀ x, x = plan.encode d ∨ Decoded plan (fun k => (cells k).chunk) x →
    ∀ mg, mg = jeCksumCalc (plan.encode d) ∨ (∃ k, mg = (cells k).magic) →
      jeCksumCalc x = mg → mg ≠ 0 ∧ x = plan.encode (gen mg)

variable {gen : Nat → Magic → Fin n → Chunk cs} {g : Magic → Fin n → Chunk cs}
  {D D' : Nat → Fin n → Chunk cs} {plan : Mds n m (Chunk cs)} {d : Fin n → Chunk cs}
  {cells old : Fin (n + m) → Cell cs} {stale lost : Finset (Fin (n + m))} {win : Magic}

theorem allGood_iff (good : Nat → Bool) :
    (∀ v ∈ r.iov, AllGood n cs good v) ↔ ∀ c, r.Covers n cs c → good c = true := by
  constructor
  · rintro h c ⟨v, hv, u, hu, rfl⟩
    exact h v hv u hu
  · intro h v hv u hu
    exact h _ ⟨v, hv, u, hu, rfl⟩

theorem Returns.unique (h : Returns r D mem) (h' : Returns r D' mem) {c} (hc : r.Covers n cs c) :
    D c = D' c := by
  obtain ⟨v, hv, u, hu, rfl⟩ := hc
  obtain ⟨j, hj⟩ := mem_iff_getElem?.mp hv
  rw [← h j v hj u hu, h' j v hj u hu]

theorem Returns.congr (h : Returns r D mem) (hD : ∀ c, r.Covers n cs c → D c = D' c) :
    Returns r D' mem := by
  intro j v hv u hu
  rw [h j v hv u hu]
  exact hD _ ⟨v, mem_of_getElem? hv, u, hu, rfl⟩

/-- A read of stripes with known generations: accepted or not, each for the stripe of the
magic that wins. -/
theorem read_outcome (hcs : 0 < cs) (hpos : 0 < n) (hr : r.Ok n m cs)
    (hgen : ∀ c, r.Covers n cs c →
      Generations s.plan (gen c) fun k => child.cell (c * (n + m) + k.val))
    (hsep : ∀ c, r.Covers n cs c →
      Separates s.plan (gen c) fun k => child.cell (c * (n + m) + k.val)) (win : Nat → Magic)
    (hwin : ∀ c, Vote.Leads (magics fun k : Fin (n + m) => child.cell (c * (n + m) + k.val)) (win c))
    (sch : Schedule) (mem : Mem) (magic : Nat → Magic) :
    ((segjeraseReadFunc s (fun _ => child) sch r mem magic).1 = true ↔
      ∀ c, r.Covers n cs c → Accepts s child.errorCode
        (fun k => child.cell (c * (n + m) + k.val)) (gen c) (win c)) ∧
    ((segjeraseReadFunc s (fun _ => child) sch r mem magic).1 = true →
      Returns r (fun c => gen c (win c))
        (segjeraseReadFunc s (fun _ => child) sch r mem magic).2) := by
  classical
  obtain ⟨good, hgood⟩ : ∃ good : Nat → Bool, good = fun c => decide (Accepts s child.errorCode
    (fun k : Fin (n + m) => child.cell (c * (n + m) + k.val)) (gen c) (win c)) := ⟨_, rfl⟩
  have hsettled : ∀ v ∈ r.iov, ∀ u < nstripes n cs v,
      Settled s child good (fun c => gen c (win c)) (firstStripe n cs v + u) := by
    intro v hv u hu brute hbrute
    have hc : r.Covers n cs (firstStripe n cs v + u) := ⟨v, hv, u, hu, rfl⟩
    obtain ⟨hok, hdata⟩ := readStripe_spec child.errorCode hpos (hgen _ hc)
      (hsep _ hc) hbrute (hwin (firstStripe n cs v + u))
    have heq : (readStripe s child.errorCode brute fun k =>
        child.cell ((firstStripe n cs v + u) * (n + m) + k.val)).ok =
        good (firstStripe n cs v + u) := by
      rw [hgood, Bool.eq_iff_iff, hok, decide_eq_true_iff]
    exact ⟨heq, fun h => hdata (heq.trans h)⟩
  obtain ⟨hok, hret⟩ := segjeraseReadFunc_spec hpos hr hsettled hcs sch mem magic
  have hiff : (∀ v ∈ r.iov, AllGood n cs good v) ↔ ∀ c, r.Covers n cs c →
      Accepts s child.errorCode (fun k => child.cell (c * (n + m) + k.val)) (gen c) (win c) := by
    rw [allGood_iff, hgood]
    simp
  exact ⟨hok.trans hiff, fun h => hret (hok.mp h)⟩

/-- The magic that most devices carry, the first of several, stands for the new data: its
devices hold chunks of it, and it is the checksum of the new data if the stripe is checked
against it. -/
def NewWins (s : Segjerase n m cs) (errorCode : Nat) (cells : Fin (n + m) → Cell cs)
    (d : Fin n → Chunk cs) : Prop :=
  ∃ win, Vote.Leads (magics cells) win ∧
    (∀ k, (cells k).magic = win → (cells k).chunk = s.plan.encode d k) ∧
    (Verified s errorCode cells win → win = jeCksumCalc (s.plan.encode d))

theorem failing_cell (lost : Finset (Fin (n + m))) (store : Nat → Cell cs) (c : Nat)
    (k : Fin (n + m)) :
    (failing n m lost store).cell (c * (n + m) + k.val) =
      if k ∈ lost then Cell.blank else store (c * (n + m) + k.val) := by
  simp only [failing, exists_mem_mod]

/-- The new magic is that of the new data. -/
theorem Adler32Separates.new (h : Adler32Separates plan g d cells) :
    jeCksumCalc (plan.encode d) ≠ 0 ∧ g (jeCksumCalc (plan.encode d)) = d := by
  obtain ⟨hne, heq⟩ := h _ (.inl rfl) _ (.inl rfl) rfl
  exact ⟨hne, (plan.encode_injective heq).symm⟩

theorem Adler32Separates.separates (h : Adler32Separates plan g d cells) :
    Separates plan g cells :=
  fun x hx k => h x (.inr hx) _ (.inr ⟨k, rfl⟩)

theorem Generations.seen (hold : Generations plan g old)
    (hsep : Adler32Separates plan g d (seen plan d old stale lost)) :
    Generations plan g (seen plan d old stale lost) := by
  refine ⟨hold.blank, fun k => ?_⟩
  rw [Jerasure.seen]
  by_cases hl : k ∈ lost
  · rw [if_pos hl]
    change (0 : Chunk cs) = plan.encode (g 0) k
    rw [hold.blank, plan.encode_zero]
    rfl
  · split_ifs with hs
    · exact hold.chunk k
    · rw [hsep.new.2]

/-- The devices that are neither stale nor lost carry the new magic. -/
theorem le_card_new (hloss : (stale ∪ lost).card ≤ m) :
    n ≤ (holders (seen plan d old stale lost) (jeCksumCalc (plan.encode d))).card := by
  have hsub : (stale ∪ lost)ᶜ ⊆ holders (seen plan d old stale lost) (jeCksumCalc (plan.encode d)) := by
    intro k hk
    rw [mem_compl, mem_union, not_or] at hk
    rw [mem_holders, seen, if_neg hk.2, if_neg hk.1]
  have hcard := card_le_card hsub
  have htotal := card_compl_add_card (stale ∪ lost)
  rw [Fintype.card_fin] at htotal
  omega

theorem Leads.card_le (hwin : Vote.Leads (magics cells) win) (mg : Magic) :
    (holders cells mg).card ≤ (holders cells win).card := by
  rw [← count_magics, ← count_magics]
  by_cases hmem : mg ∈ magics cells
  · by_cases heq : mg = win
    · rw [heq]
    · have := hwin.2 mg hmem heq
      omega
  · rw [count_eq_zero_of_not_mem hmem]
    exact Nat.zero_le _

/-- Accepting a stripe as the new data is a matter of the vote. -/
theorem accepts_new_iff (hpos : 0 < n) (errorCode : Nat) (hloss : (stale ∪ lost).card ≤ m)
    (hgen : Generations s.plan g (seen s.plan d old stale lost))
    (hsep : Adler32Separates s.plan g d (seen s.plan d old stale lost))
    (hwin : Vote.Leads (magics (seen s.plan d old stale lost)) win) :
    (Accepts s errorCode (seen s.plan d old stale lost) g win ∧ g win = d) ↔
      NewWins s errorCode (seen s.plan d old stale lost) d := by
  have hnew : n ≤ (holders (seen s.plan d old stale lost)
      (jeCksumCalc (s.plan.encode d))).card := le_card_new hloss
  have hcard : n ≤ (holders (seen s.plan d old stale lost) win).card :=
    le_trans hnew (Leads.card_le hwin _)
  constructor
  · rintro ⟨haccepts, heq⟩
    refine ⟨win, hwin, fun k hk => ?_, fun hver => ?_⟩
    · rw [hgen.chunk k, hk, heq]
    · rcases haccepts with hzero | ⟨-, hsum⟩
      · -- some device carries the new magic, which is not zero
        obtain ⟨k, hk⟩ := card_pos.mp (lt_of_lt_of_le hpos hnew)
        exact absurd ((mem_holders.mp hk).symm.trans (hzero k)) hsep.new.1
      · rw [← heq]
        exact hsum hver
  · rintro ⟨win', hwin', hchunk, hsum⟩
    obtain rfl := hwin.unique hwin'
    have hgenwin : g win = d := by
      have htotal := card_compl_holders (seen s.plan d old stale lost) win
      refine s.plan.eq_of_agree (E := (holders (seen s.plan d old stale lost) win)ᶜ) (by omega) ?_
      intro k hk
      have hk' : (seen s.plan d old stale lost k).magic = win := by simpa using hk
      rw [← hgen.agrees win k hk, hchunk k hk']
    exact ⟨.inr ⟨hcard, fun hver => by rw [hgenwin]; exact hsum hver⟩, hgenwin⟩

open Segment (Byte)

/-- A mirrored pair of devices with chunks of one byte and checksums in the magics. -/
def mirrored : Segjerase 1 1 1 := ⟨mirror (Chunk 1), 0, true, false, false⟩

/-- Operations that finish in the order of their submission. -/
def inOrder : Schedule := ⟨id, fun _ => .refl _⟩

/-- A request for the first stripe of the pair, with the byte at address `a`. -/
def oneByte (a : Int) : RwReq := ⟨[⟨0, 1⟩], 0, ⟨1, [⟨a, 1⟩]⟩⟩

def twoBytes (a b : Byte) : Word 1 1 1 := fun k _ => if k = 0 then a else b

/-- The pair after the byte `a` was written everywhere. -/
def holding (a : Byte) : Nat → Cell 1 := fun _ => ⟨jeCksumCalc (twoBytes a a), fun _ => a⟩

/-- The generations of a stripe that held `a` and then `b`. -/
def firstThen (a b : Byte) (mg : Magic) : Fin 1 → Chunk 1 := fun _ _ =>
  if mg = jeCksumCalc (twoBytes b b) then b
  else if mg = jeCksumCalc (twoBytes a a) then a else 0

theorem ok_oneByte (a : Int) : (oneByte a).Ok 1 1 1 where
  total := rfl
  nodup := by simp [oneByte, Toolbox.addresses, ByteSpan.positions, ByteSpan.span]
  whole v hv := by
    obtain rfl := mem_singleton.mp hv
    decide
  room := by simp [RwReq.posAt, oneByte, nstripes, MachineInt.i32]
  bytes := by simp [oneByte]
  lens v hv := by
    obtain rfl := mem_singleton.mp hv
    decide
  parity := by simp [oneByte, nstripes, MachineInt.i32]

theorem distinct_oneByte (a : Int) : (oneByte a).Distinct 1 1 := by
  intro j j' v v' hv hv' u _ u' _ _
  have hj : j < 1 := (List.getElem?_eq_some_iff.mp hv).1
  have hj' : j' < 1 := (List.getElem?_eq_some_iff.mp hv').1
  omega

/-- Decoding a mirrored pair only copies chunks. -/
theorem decoded_mirror {w x} {P : Chunk 1 → Prop} (hw : ∀ k, P (w k))
    (h : Decoded (mirror (Chunk 1)) w x) (k : Fin (1 + 1)) : P (x k) := by
  induction h generalizing k with
  | refl => exact hw k
  | decode E _ _ ih =>
    change P (if k ∈ E then _ else _)
    split
    · exact ih k.rev
    · exact ih k

/-- With chunks `a` and `b` on the devices four words can occur. -/
theorem adler32Separates_mirrored {g} {cells : Fin (1 + 1) → Cell 1} (a b : Byte)
    (hcells : ∀ k, (cells k).chunk = (fun _ => a) ∨ (cells k).chunk = fun _ => b)
    (h : [twoBytes a a, twoBytes a b, twoBytes b a, twoBytes b b].all fun x =>
      (jeCksumCalc x = jeCksumCalc (twoBytes b b) ∨ ∃ k, jeCksumCalc x = (cells k).magic) →
        jeCksumCalc x ≠ 0 ∧ x = mirrored.plan.encode (g (jeCksumCalc x))) :
    Adler32Separates mirrored.plan g (fun _ _ => b) cells := by
  rintro x hx mg hmg rfl
  refine of_decide_eq_true (all_eq_true.mp h x ?_) hmg
  have hchunk : ∀ k, x k = (fun _ => a) ∨ x k = fun _ => b := by
    rcases hx with rfl | hx
    · exact fun _ => .inr rfl
    · exact decoded_mirror (P := fun c => c = (fun _ => a) ∨ c = fun _ => b) hcells hx
  have hpair : ∀ y z : Byte, x 0 = (fun _ => y) → x 1 = (fun _ => z) → x = twoBytes y z := by
    intro y z hy hz
    funext k
    fin_cases k
    · exact hy
    · exact hz
  rcases hchunk 0 with h0 | h0 <;> rcases hchunk 1 with h1 | h1 <;> simp [hpair _ _ h0 h1]

/-- What a read finds after a write that the devices in `stale` have failed. -/
theorem failing_write (hcs : 0 < cs) (hpos : 0 < n) (hq : q.Ok n m cs) (hdistinct : q.Distinct n cs)
    (hfew : stale.card ≤ m) (lost : Finset (Fin (n + m))) (sch : Schedule) (magic : Nat → Magic)
    (store : Nat → Cell cs) (hD : Returns q D mem) {c} (hc : q.Covers n cs c) :
    (fun k : Fin (n + m) => (failing n m lost
        (segjeraseWriteFunc s (fun _ => stale) sch q mem magic store).store).cell
        (c * (n + m) + k.val)) =
      seen s.plan (D c) (fun k => store (c * (n + m) + k.val)) stale lost := by
  obtain ⟨v, hv, u, hu, rfl⟩ := hc
  obtain ⟨j, hj⟩ := mem_iff_getElem?.mp hv
  have hstored :=
    (segjeraseWriteFunc_spec (s := s) hcs hpos hq hdistinct hfew sch mem magic store).2 j v hj u hu
  funext k
  rw [failing_cell, hstored k, seen, written, wordAt, hD j v hj u hu]

/-- A write, which the devices in `stale` fail, and a later read, which those in `lost` fail.
The paranoid flag at the time of the read is arbitrary. -/
def writeThenRead (s : Segjerase n m cs) (stale lost : Finset (Fin (n + m))) (sch sch' : Schedule)
    (q r : RwReq) (mem mem' : Mem) (magic magic' : Nat → Magic) (store : Nat → Cell cs)
    (paranoid : Bool) : Bool × Mem :=
  segjeraseReadFunc { s with paranoidCheck := paranoid }
    (fun _ => failing n m lost (segjeraseWriteFunc s (fun _ => stale) sch q mem magic store).store)
    sch' r mem' magic'

/-- The outcome of the read in terms of the winning magics. -/
theorem writeThenRead_outcome (hcs : 0 < cs) (hpos : 0 < n) (hq : q.Ok n m cs)
    (hdistinct : q.Distinct n cs) (hr : r.Ok n m cs)
    (hwithin : ∀ c, r.Covers n cs c → q.Covers n cs c) (hfew : stale.card ≤ m) (sch sch' : Schedule)
    (mem' : Mem) (magic magic' : Nat → Magic) (store : Nat → Cell cs) (paranoid : Bool)
    (hD : Returns q D mem)
    (hgen : ∀ c, r.Covers n cs c → Generations s.plan (gen c)
      (seen s.plan (D c) (fun k => store (c * (n + m) + k.val)) stale lost))
    (hsep : ∀ c, r.Covers n cs c → Separates s.plan (gen c)
      (seen s.plan (D c) (fun k => store (c * (n + m) + k.val)) stale lost)) :
    ∃ win : Nat → Magic,
      (∀ c, r.Covers n cs c → Vote.Leads (magics
        (seen s.plan (D c) (fun k => store (c * (n + m) + k.val)) stale lost)) (win c)) ∧
      ((writeThenRead s stale lost sch sch' q r mem mem' magic magic' store paranoid).1 = true ↔
        ∀ c, r.Covers n cs c → Accepts { s with paranoidCheck := paranoid } lost.card
          (seen s.plan (D c) (fun k => store (c * (n + m) + k.val)) stale lost) (gen c) (win c)) ∧
      ((writeThenRead s stale lost sch sch' q r mem mem' magic magic' store paranoid).1 = true →
        Returns r (fun c => gen c (win c))
          (writeThenRead s stale lost sch sch' q r mem mem' magic magic' store paranoid).2) := by
  have hcells := fun c hc =>
    failing_write (s := s) hcs hpos hq hdistinct hfew lost sch magic store hD (hwithin c hc)
  rw [writeThenRead]
  obtain ⟨child, hchild⟩ : ∃ x, x = failing n m lost
    (segjeraseWriteFunc s (fun _ => stale) sch q mem magic store).store := ⟨_, rfl⟩
  have herror : child.errorCode = lost.card := by rw [hchild]; rfl
  rw [← hchild] at hcells ⊢
  choose win hwin using fun c : Nat =>
    exists_leads hpos fun k : Fin (n + m) => child.cell (c * (n + m) + k.val)
  obtain ⟨hok, hret⟩ := read_outcome (s := { s with paranoidCheck := paranoid }) hcs hpos hr
    (fun c hc => by rw [hcells c hc]; exact hgen c hc)
    (fun c hc => by rw [hcells c hc]; exact hsep c hc) win hwin sch' mem' magic'
  refine ⟨win, fun c hc => hcells c hc ▸ hwin c, hok.trans (forall₂_congr fun c hc => ?_), hret⟩
  rw [hcells c hc, herror]

theorem seen_none (plan : Mds n m (Chunk cs)) (d : Fin n → Chunk cs) (old old' : Fin (n + m) → Cell cs)
    (lost : Finset (Fin (n + m))) : seen plan d old ∅ lost = seen plan d old' ∅ lost := by
  funext k
  simp [seen]

theorem generations_blank {plan : Mds n m (Chunk cs)} (h : g 0 = 0) :
    Generations plan g fun _ => Cell.blank := by
  refine ⟨h, fun k => ?_⟩
  change (0 : Chunk cs) = plan.encode (g 0) k
  rw [h, plan.encode_zero]
  rfl

/-- A stripe written to all devices is accepted only as what it is, unless all are lost. -/
theorem accepts_written {d} {old : Fin (n + m) → Cell cs} {win} (hsum : s.magicCksum = true)
    (hgen : Generations s.plan g (seen s.plan d old ∅ lost))
    (hsep : Adler32Separates s.plan g d (seen s.plan d old ∅ lost))
    (hwin : Vote.Leads (magics (seen s.plan d old ∅ lost)) win) {k₀ : Fin (n + m)}
    (hk₀ : k₀ ∉ lost) (h : Accepts s lost.card (seen s.plan d old ∅ lost) g win) : g win = d := by
  have hmagic : ∀ k, k ∉ lost →
      (seen s.plan d old ∅ lost k).magic = jeCksumCalc (s.plan.encode d) := by
    intro k hk
    simp [seen, hk]
  rcases h with hzero | ⟨hcard, hver⟩
  · exact absurd ((hmagic k₀ hk₀).symm.trans (hzero k₀)) hsep.new.1
  · obtain ⟨k, -, hk⟩ := mem_map.mp hwin.1
    by_cases hlost : k ∈ lost
    · -- the lost devices win, but the zero word fails the check against the zero magic
      have hwin0 : win = 0 := by
        rw [← hk]
        simp [seen, hlost, Cell.blank]
      have hparanoid : paranoidMode s lost.card = true := by
        rw [paranoidMode, if_pos (card_ne_zero_of_mem hlost)]
      have hzerosum := hver ⟨hsum, .inl hparanoid⟩
      have htotal := card_compl_holders (seen s.plan d old ∅ lost) win
      have hdec : Decoded s.plan (fun k => (seen s.plan d old ∅ lost k).chunk)
          (s.plan.encode (g win)) := by
        rw [← s.plan.decode_eq_encode (E := (holders (seen s.plan d old ∅ lost) win)ᶜ) (by omega)
          (hgen.agrees win)]
        exact .decode _ .refl (by omega)
      obtain ⟨hne, -⟩ := hsep.separates _ hdec k (hzerosum.symm.trans hk.symm)
      exact absurd (hk.trans hwin0) hne
    · rw [← hk, hmagic k hlost]
      exact hsep.new.2

end LStore.Jerasure
