import LStore.Ibp.Confined

/-!
# Confinement of copies inside the depot

The loop of `disk_to_disk_copy_user` counts with an `int`. Up to `maxCopy` bytes it walks the two
ranges once; beyond, the counter overflows and the loop goes on past the end of both.
-/

namespace LStore.Ibp

open List Option MachineInt

variable {len : Int}

/-- One pass touches only bytes of the source window and of the destination window. -/
def Turn.Inside (ws wd : Window) (t : Turn) : Prop :=
  Ibp.Inside ws ⟨t.soff, t.nbytes⟩ ∧ Ibp.Inside wd ⟨t.doff, t.nbytes⟩

/-- The last length for which the loop counter of the copy stays in its `int`. -/
def maxCopy : Int := 2146435072

/-- The bytes `[soff, soff + n)` are part of the window. -/
def Window.Holds (w : Window) (soff n : Int) : Prop := w.lo ≤ soff ∧ soff + n ≤ w.hi

section

variable {ws wd : Window} (hslo : 0 ≤ ws.lo) (hshi : ws.hi < 9223372036854775808)
  (hdlo : 0 ≤ wd.lo) (hdhi : wd.hi < 9223372036854775808)
include hslo hshi hdlo hdhi

/-- As long as the counter does not overflow, the passes stay in what is left of the ranges. -/
theorem copyTurns_inside (hlen : len ≤ maxCopy) (k : Nat) {i soff doff nleft} (hi : 0 ≤ i)
    (hleft : nleft = len - i) (hs : i < len → ws.Holds soff nleft)
    (hd : i < len → wd.Holds doff nleft) :
    ∀ t ∈ copyTurns len k i soff doff nleft, t.Inside ws wd := by
  induction k generalizing i soff doff nleft with
  | zero => exact forall_mem_nil _
  | succ k ih =>
    rw [copyTurns]
    split
    · next hlt =>
        unfold Window.Holds at hs hd ih
        unfold maxCopy at hlen
        refine forall_mem_cons.2 ⟨?_, ih ?_ ?_ ?_ ?_⟩
        · unfold Turn.Inside Ibp.Inside bufsize
          dsimp only
          omega
        · unfold i32 bufsize
          omega
        · unfold i32 i64 bufsize
          omega
        · unfold i32 i64 bufsize
          omega
        · unfold i32 i64 bufsize
          omega
    · exact forall_mem_nil _

/-- If every pass is inside, so are the two ranges the loop walks. -/
theorem holds_of_copyTurns (hlen : len ≤ maxCopy) (m : Nat) (i soff doff nleft : Int)
    (hm : nleft ≤ m * bufsize) (hi : 0 ≤ i) (hlt : i < len) (hleft : nleft = len - i)
    (h : ∀ k, ∀ t ∈ copyTurns len k i soff doff nleft, t.Inside ws wd) :
    ws.Holds soff nleft ∧ wd.Holds doff nleft := by
  induction m generalizing i soff doff nleft with
  | zero =>
    exfalso
    omega
  | succ m ih =>
    have hfirst := h 1 _ (by rw [copyTurns, if_pos hlt]; exact mem_cons_self)
    unfold maxCopy at hlen
    unfold Turn.Inside Ibp.Inside bufsize at hfirst
    dsimp only at hfirst
    unfold Window.Holds at ih ⊢
    unfold bufsize at hm ih
    by_cases hlast : nleft ≤ bufsize
    · unfold bufsize at hlast
      omega
    · unfold bufsize at hlast
      have hnext := ih (i32 (i + bufsize)) (i64 (soff + bufsize)) (i64 (doff + bufsize))
        (i64 (nleft - bufsize))
        (by unfold i64 bufsize; omega) (by unfold i32 bufsize; omega)
        (by unfold i32 bufsize; omega) (by unfold i32 i64 bufsize; omega)
        (fun k t ht => h (k + 1) t (by
          rw [copyTurns, if_pos hlt, if_pos (show nleft > bufsize by unfold bufsize; omega)]
          exact mem_cons_of_mem _ ht))
      unfold i64 bufsize at hnext
      omega

end

/-- Past `maxCopy` the counter never reaches the length, and the number of bytes left goes below
zero while the loop runs. -/
theorem copyTurns_negative (hlen : maxCopy < len) (m : Nat) (i nleft : Int) (soff doff : Int)
    (hm : nleft < m * bufsize) (hmult : i % bufsize = 0) (hi : i ≤ maxCopy)
    (hge : -9223372036854775808 ≤ nleft) (hhi : nleft < 9223372036854775808) :
    ∃ k, ∃ t ∈ copyTurns len k i soff doff nleft, t.nbytes < 0 := by
  have hlt : i < len := lt_of_le_of_lt hi hlen
  induction m generalizing i soff doff nleft with
  | zero =>
    refine ⟨1, _, by rw [copyTurns, if_pos hlt]; exact mem_cons_self, ?_⟩
    dsimp only
    omega
  | succ m ih =>
    by_cases hneg : nleft < 0
    · refine ⟨1, _, by rw [copyTurns, if_pos hlt]; exact mem_cons_self, ?_⟩
      dsimp only
      omega
    unfold bufsize maxCopy at *
    obtain ⟨k, t, ht, hn⟩ := ih (i32 (i + 1048576)) (i64 (nleft - 1048576))
      (i64 (soff + if nleft > 1048576 then 1048576 else nleft))
      (i64 (doff + if nleft > 1048576 then 1048576 else nleft))
      (by unfold i64; omega) (by unfold i32; omega) (by unfold i32; omega)
      (by unfold i64; omega) (by unfold i64; omega) (by unfold i32; omega)
    exact ⟨k + 1, t, by rw [copyTurns, if_pos hlt]; exact mem_cons_of_mem _ ht, hn⟩

/-- The copy of `len` bytes stays inside both windows exactly when it does nothing, or is short
enough for its counter and both ranges are inside. -/
theorem copyTurns_inside_iff {ws wd} (hslo : 0 ≤ ws.lo) (hshi : ws.hi < 9223372036854775808)
    (hdlo : 0 ≤ wd.lo) (hdhi : wd.hi < 9223372036854775808) (hlen : len < 9223372036854775808)
    (soff doff : Int) :
    (∀ k, ∀ t ∈ copyTurns len k 0 soff doff len, t.Inside ws wd) ↔
      len ≤ 0 ∨ (len ≤ maxCopy ∧ ws.Holds soff len ∧ wd.Holds doff len) := by
  constructor
  · intro h
    by_cases hpos : len ≤ 0
    · exact .inl hpos
    rw [not_le] at hpos
    have hshort : len ≤ maxCopy := by
      by_contra hlong
      obtain ⟨k, t, ht, hneg⟩ := copyTurns_negative (not_le.1 hlong) (len.toNat + 1) 0 len
        soff doff (by unfold bufsize; omega) rfl (by decide) (by omega) hlen
      obtain ⟨hs, -⟩ := h k t ht
      unfold Ibp.Inside at hs
      dsimp only at hs
      omega
    exact .inr ⟨hshort, holds_of_copyTurns hslo hshi hdlo hdhi hshort len.toNat 0 soff doff len
      (by unfold bufsize; omega) le_rfl hpos (by omega) h⟩
  · rintro (hneg | ⟨hshort, hs, hd⟩) k
    · cases k with
      | zero => exact forall_mem_nil _
      | succ k =>
        rw [copyTurns, if_neg (by omega)]
        exact forall_mem_nil _
    · exact copyTurns_inside hslo hshi hdlo hdhi hshort k le_rfl (by omega)
        (fun _ => hs) (fun _ => hd)

/-- Where the copy starts in the local allocation. -/
def localStart (c : Cap) (r : CopyArgs) : Int :=
  if r.dir = .pull ∧ r.writeMode = true then c.master.size else i64 (r.ele.off + c.aliasOffset)

/-- Where the copy starts in the remote allocation. -/
def remoteStart (rem : Cap) (r : CopyArgs) : Int :=
  if i32 r.remoteOffset < 0 then i32 rem.master.size else i32 r.remoteOffset

/-- The checks by which `handle_copy` and `same_depot_copy` refuse a copy. -/
def CopyRefused (c rem : Cap) (r : CopyArgs) : Prop :=
  endsWithin c ⟨localStart c r, r.ele.len⟩ = false ∨
    (r.dir = .push ∧ i64 (localStart c r + r.ele.len) > c.master.size) ∨
    (rem.aliasOf.any (fun v => v.offset > 0) ∧ i32 r.remoteOffset < 0) ∨
    i64 (remoteStart rem r + r.ele.len) > rem.master.maxSize

theorem handleCopy_eq (c : Cap) (r : CopyArgs) :
    handleCopy c r =
      if endsWithin c ⟨localStart c r, r.ele.len⟩ = false then none
      else if r.dir = .push ∧ i64 (localStart c r + r.ele.len) > c.master.size then none
      else some ⟨localStart c r, r.ele.len⟩ := by
  unfold handleCopy localStart Ele.shift
  split <;> rfl

theorem sameDepotOffset_eq (rem : Cap) (r : CopyArgs) :
    sameDepotOffset rem r =
      if rem.aliasOf.any (fun v => v.offset > 0) ∧ i32 r.remoteOffset < 0 then none
      else if i64 (remoteStart rem r + r.ele.len) > rem.master.maxSize then none
      else some (remoteStart rem r) := rfl

/-- The copy between source and destination, as the direction has it. -/
theorem sameDepotCopy_eq (c rem : Cap) (r : CopyArgs) (k : Nat) :
    (CopyRefused c rem r ∧ sameDepotCopy c rem r k = []) ∨
      (¬ CopyRefused c rem r ∧ sameDepotCopy c rem r k =
        match r.dir with
        | .pull =>
          copyTurns r.ele.len k 0 (remoteStart rem r) (i32 (localStart c r)) r.ele.len
        | .push =>
          copyTurns r.ele.len k 0 (i32 (localStart c r)) (remoteStart rem r) r.ele.len) := by
  unfold sameDepotCopy CopyRefused
  rw [handleCopy_eq, sameDepotOffset_eq]
  by_cases h₁ : endsWithin c ⟨localStart c r, r.ele.len⟩ = false
  · exact .inl ⟨.inl h₁, by rw [if_pos h₁]⟩
  by_cases h₂ : r.dir = .push ∧ i64 (localStart c r + r.ele.len) > c.master.size
  · exact .inl ⟨.inr (.inl h₂), by rw [if_neg h₁, if_pos h₂]⟩
  rw [if_neg h₁, if_neg h₂]
  by_cases h₃ : rem.aliasOf.any (fun v => v.offset > 0) ∧ i32 r.remoteOffset < 0
  · exact .inl ⟨.inr (.inr (.inl h₃)), by rw [if_pos h₃]⟩
  by_cases h₄ : i64 (remoteStart rem r + r.ele.len) > rem.master.maxSize
  · exact .inl ⟨.inr (.inr (.inr h₄)), by rw [if_neg h₃, if_pos h₄]⟩
  rw [if_neg h₃, if_neg h₄]
  refine .inr ⟨?_, rfl⟩
  rw [not_or, not_or, not_or]
  exact ⟨h₁, h₂, h₃, h₄⟩

theorem readCopy_len_lt {cmd : CopyCmd} {r} (h : readCopy cmd = some r) :
    r.ele.len < 9223372036854775808 := by
  cases cmd with
  | send off len =>
    obtain ⟨n, hn, rfl⟩ := map_eq_some_iff.1 h
    exact (readLen_stored hn).2.2
  | push off roff len =>
    obtain ⟨n, hn, rfl⟩ := map_eq_some_iff.1 h
    exact (readLen_stored hn).2.2
  | pull off roff len =>
    obtain ⟨n, hn, rfl⟩ := map_eq_some_iff.1 h
    split <;> exact (readLen_stored hn).2.2
  | pullChksum off roff len =>
    obtain ⟨n, hn, rfl⟩ := map_eq_some_iff.1 h
    exact (readLen_stored hn).2.2

/-- The commands that move the data of an allocation within the depot or to a client. -/
inductive Command where
  | write (cmd : WriteCmd)
  | read (cmd : ReadCmd)
  | copy (cmd : CopyCmd)
  deriving DecidableEq

/-- All ranges let through, and all accesses of the transfer of their data, are in the window. -/
def TransferInside (w : Window) (ranges : List Ele) : Prop :=
  (∀ e ∈ ranges, Inside w e) ∧
    ∀ (total : Nat) (rooms : List Nat), ∀ e ∈ transfer ranges total rooms, Inside w e

/-- A command made with the capability `c`, and for a copy with the capability `rem` of the same
depot, touches only the bytes of their windows. -/
def Confined (c rem : Cap) : Command → Prop
  | .write cmd => ∀ es, readWrite cmd = some es → ∀ ranges, handleWrite c es = some ranges →
      TransferInside c.window ranges
  | .read cmd => ∀ es, readRead cmd = some es → ∀ ranges, handleRead c es = some ranges →
      TransferInside c.window ranges
  | .copy cmd => ∀ r, readCopy cmd = some r → ∀ k, ∀ t ∈ sameDepotCopy c rem r k,
      match r.dir with
      | .pull => t.Inside rem.window c.window
      | .push => t.Inside c.window rem.window

/-- The condition on the fields of a copy that gets past the checks: the length is too large to
be positive as an `ibp_off_t`, so that nothing is copied, or the counter of the loop can hold it
and both ranges, with their offsets as `int`s, lie in the windows. -/
def CopySane (c rem : Cap) (r : CopyArgs) : Prop :=
  r.ele.len ≤ 0 ∨ (r.ele.len ≤ maxCopy ∧ c.window.Holds (i32 (localStart c r)) r.ele.len ∧
    rem.window.Holds (remoteStart rem r) r.ele.len)

/-- The condition under which a command is confined: the checks refuse it, or its fields are
sane. -/
def Meets (c rem : Cap) : Command → Prop
  | .write cmd => ∀ es, readWrite cmd = some es →
      WriteRefused c es ∨ ∀ e ∈ appendOff c.master es, Sane c e
  | .read cmd => ∀ es, readRead cmd = some es → ReadRefused c es ∨ ∀ e ∈ es, Sane c e
  | .copy cmd => ∀ r, readCopy cmd = some r → CopyRefused c rem r ∨ CopySane c rem r

theorem transferInside_iff (c : Cap) (ranges : List Ele) :
    TransferInside c.window ranges ↔ ∀ e ∈ ranges, Inside c.window e :=
  ⟨fun h => h.1, fun h => ⟨h, transfer_inside c.window_lo_nonneg c.window_hi_lt h⟩⟩

/-- A handler that refuses or hands over the shifted elements confines its command exactly when
it refuses or the elements are sane. -/
theorem handled_iff {c} {es : List Ele} {refused : Prop} {handled} (hc : c.Proper)
    (hst : ∀ e ∈ es, Stored e)
    (heq : (refused ∧ handled = none) ∨ ((∀ e ∈ es, endsWithin c (e.shift c.aliasOffset) = true) ∧
      ¬ refused ∧ handled = some (es.map (·.shift c.aliasOffset)))) :
    (∀ ranges, handled = some ranges → TransferInside c.window ranges) ↔
      refused ∨ ∀ e ∈ es, Sane c e := by
  rcases heq with ⟨href, rfl⟩ | ⟨hend, href, rfl⟩
  · exact ⟨fun _ => .inl href, fun _ _ h => absurd h (by simp)⟩
  · simp only [some.injEq, forall_eq', transferInside_iff, inside_all_iff hc hst hend, href,
      false_or]

theorem copy_confined_iff (c rem : Cap) {r} (hlen : r.ele.len < 9223372036854775808) :
    (∀ k, ∀ t ∈ sameDepotCopy c rem r k,
      match r.dir with
      | .pull => t.Inside rem.window c.window
      | .push => t.Inside c.window rem.window) ↔
      CopyRefused c rem r ∨ CopySane c rem r := by
  have hc := c.window_lo_nonneg
  have hrem := rem.window_lo_nonneg
  by_cases href : CopyRefused c rem r
  · refine ⟨fun _ => .inl href, fun _ k => ?_⟩
    have hk := (sameDepotCopy_eq c rem r k).resolve_right fun h => h.1 href
    rw [hk.2]
    exact forall_mem_nil _
  · have hcopy := fun k => ((sameDepotCopy_eq c rem r k).resolve_left fun h => href h.1).2
    simp only [hcopy, href, false_or, CopySane]
    cases hdir : r.dir with
    | pull =>
      rw [copyTurns_inside_iff hrem rem.window_hi_lt hc c.window_hi_lt hlen,
        and_comm (a := rem.window.Holds _ _)]
    | push => rw [copyTurns_inside_iff hc c.window_hi_lt hrem rem.window_hi_lt hlen]

/-- A capability of an allocation with 100 bytes of data, of which 50 are written. -/
def hundredCap (aliasOf : Option Alias) : Cap :=
  ⟨⟨100, 50, by decide, by decide, by decide, by decide⟩, aliasOf⟩

end LStore.Ibp
