import Mathlib.Tactic.Ring

/-!
# Variable-length integers

`src/toolbox/varint.c` writes an unsigned number as bytes of seven bits each, the lowest first;
the eighth bit says that another byte follows. A signed number is folded to an unsigned one
first, so that those near zero stay short.

## Implementation notes

A buffer is the list of its bytes, and an encoder returns the bytes that it wrote. A decoder
returns the number of bytes that it read, or -1, and what is then in `*value`. C does not define
a shift by 64 bits or more, which no number that was encoded needs.
-/

namespace LStore.Toolbox

open List

/-- The rest of the 16 rounds. -/
def varintEncodeLoop : Nat → UInt64 → Option (List UInt8)
  | 0, _ => none
  | k + 1, value =>
    let b := value.toUInt8 ||| 0x80
    let value := value >>> 7
    if value = 0 then some [b ^^^ 0x80] else (varintEncodeLoop k value).map (b :: ·)

def varintEncode (value : UInt64) : Option (List UInt8) := varintEncodeLoop 16 value

def varintDecodeLoop : List UInt8 → Int → Nat → UInt64 → Int × UInt64
  | [], _, _, value => (-1, value)
  | b :: buffer, i, bits, value =>
    let value := value + (b &&& 0x7F).toUInt64 <<< UInt64.ofNat bits
    if b &&& 0x80 = 0 then (i + 1, value) else varintDecodeLoop buffer (i + 1) (bits + 7) value

def varintDecode (buffer : List UInt8) : Int × UInt64 := varintDecodeLoop buffer 0 0 0

/-- The fold of `tbx_zigzag_encode`. -/
def zigzag (value : Int64) : UInt64 :=
  (if value < 0 then 2 * -value - 1 else 2 * value).toUInt64

/-- The unfolding of `tbx_zigzag_decode`. -/
def unzigzag (zz : UInt64) : Int64 :=
  (if zz &&& 1 ≠ 0 then -(zz >>> 1) - 1 else zz >>> 1).toInt64

def tbxZigzagEncode (value : Int64) : Option (List UInt8) := varintEncode (zigzag value)

def tbxZigzagDecode (buffer : List UInt8) : Int × Int64 := (varintDecode buffer).map id unzigzag

theorem toInt_eq_cond (value : Int64) : value.toInt =
    if 2 * value.toUInt64.toNat < 2 ^ 64 then (value.toUInt64.toNat : Int)
    else value.toUInt64.toNat - 2 ^ 64 :=
  BitVec.toInt_eq_toNat_cond value.toBitVec

theorem toNat_zigzag (value : Int64) :
    (zigzag value).toNat = if value.toInt < 0 then -2 * value.toInt - 1 else 2 * value.toInt := by
  have hint := toInt_eq_cond value
  have hlt := value.toUInt64.toNat_lt
  have hone : Int64.toUInt64 1 = 1 := rfl
  have htwo : Int64.toUInt64 2 = 2 := rfl
  rw [zigzag]
  simp only [Int64.lt_iff_toInt_lt, Int64.toInt_zero]
  split_ifs <;> simp [hone, htwo, UInt64.toNat_sub, UInt64.toNat_neg, UInt64.size] <;> omega

theorem toInt_unzigzag (zz : UInt64) : (unzigzag zz).toInt =
    if zz.toNat % 2 = 0 then (zz.toNat / 2 : Int) else -(zz.toNat / 2) - 1 := by
  have hlow : zz &&& 1 = 0 ↔ zz.toNat % 2 = 0 := by
    rw [← UInt64.toNat_inj, UInt64.toNat_and]
    exact iff_of_eq (congrArg (· = 0) (Nat.and_one_is_mod zz.toNat))
  have hlt := zz.toNat_lt
  have hone : Int64.toUInt64 1 = 1 := rfl
  have hnat : (unzigzag zz).toUInt64.toNat =
      if zz.toNat % 2 = 0 then zz.toNat / 2 else 2 ^ 64 - 1 - zz.toNat / 2 := by
    rw [unzigzag, ite_not]
    simp only [hlow]
    split_ifs
    · simp [Nat.shiftRight_eq_div_pow]
    · simp [hone, Nat.shiftRight_eq_div_pow, UInt64.toNat_sub, UInt64.toNat_neg, UInt64.size]
      omega
  rw [toInt_eq_cond, hnat]
  split_ifs <;> omega

theorem unzigzag_zigzag (value : Int64) : unzigzag (zigzag value) = value := by
  have hzz := toNat_zigzag value
  rw [← Int64.toInt_inj, toInt_unzigzag]
  split_ifs at hzz ⊢ <;> omega

theorem toNat_shiftRight_seven (v : UInt64) : (v >>> 7).toNat = v.toNat / 128 := by
  simp [Nat.shiftRight_eq_div_pow]

/-- What the two kinds of bytes are read as. -/
theorem byte_bits (b : UInt8) : (b ||| 0x80) &&& 0x80 ≠ 0 ∧ ((b ||| 0x80) ^^^ 0x80) &&& 0x80 = 0 ∧
    ((b ||| 0x80) &&& 0x7F).toNat = b.toNat % 128 ∧
    (((b ||| 0x80) ^^^ 0x80) &&& 0x7F).toNat = b.toNat % 128 := by
  obtain ⟨x⟩ := b
  revert x
  decide +kernel

variable {value : UInt64} {bytes : List UInt8} {k : Nat}

theorem toUInt64_shiftLeft (b : UInt8) {bits} (h : bits < 64) :
    b.toUInt64 <<< UInt64.ofNat bits = UInt64.ofNat (b.toNat * 2 ^ bits) := by
  rw [← UInt64.toNat_inj]
  simp [Nat.shiftLeft_eq, Nat.mod_eq_of_lt h]

/-- A number below `128 ^ k` takes at most `k` bytes. -/
theorem exists_varintEncodeLoop (hk : 0 < k) (h : value.toNat < 128 ^ k) (j : Nat) :
    ∃ bytes, varintEncodeLoop (k + j) value = some bytes ∧ 1 ≤ bytes.length ∧
      bytes.length ≤ k := by
  induction k generalizing value with
  | zero => omega
  | succ k ih =>
    rw [Nat.add_right_comm, varintEncodeLoop]
    split_ifs with hlast
    · exact ⟨_, rfl, by simp, by simp⟩
    · have hne : value.toNat / 128 ≠ 0 := by
        rw [← toNat_shiftRight_seven]
        exact fun h0 => hlast (UInt64.toNat_inj.mp h0)
      have hk : 0 < k := by
        by_contra hk
        obtain rfl : k = 0 := by omega
        omega
      have hlt : (value >>> 7).toNat < 128 ^ k := by
        rw [toNat_shiftRight_seven]
        exact Nat.div_lt_of_lt_mul (by rwa [Nat.pow_succ'] at h)
      obtain ⟨bytes, hbytes, -, hle⟩ := ih hk hlt
      exact ⟨_, by rw [hbytes]; rfl, by simp, by simpa using hle⟩

/-- The bytes of a number are read back, wherever they stand in a larger one, and no less
than all of them are a number. -/
theorem varintDecodeLoop_encode (h : varintEncodeLoop k value = some bytes) {bits : Nat}
    (hfit : value.toNat * 2 ^ bits < 2 ^ 64) (hbits : bits < 64) (i : Int) (acc : UInt64) :
    (∀ t, varintDecodeLoop (bytes ++ t) i bits acc =
      (i + bytes.length, acc + UInt64.ofNat (value.toNat * 2 ^ bits))) ∧
    ∀ p, p <+: bytes → p ≠ bytes → (varintDecodeLoop p i bits acc).1 = -1 := by
  induction k generalizing value bytes bits i acc with
  | zero => cases h
  | succ k ih =>
    obtain ⟨hmore, hend, hlow, hlow'⟩ := byte_bits value.toUInt8
    have hbyte : value.toUInt8.toNat % 128 = value.toNat % 128 := by
      simp
    rw [varintEncodeLoop] at h
    split_ifs at h with hlast
    · cases h
      have hsmall : value.toNat / 128 = 0 := by rw [← toNat_shiftRight_seven, hlast]; rfl
      constructor
      · intro t
        simp only [cons_append, varintDecodeLoop]
        rw [if_pos hend, toUInt64_shiftLeft _ hbits, hlow', hbyte, Nat.mod_eq_of_lt (by omega)]
        rfl
      · intro p hp hne
        rcases prefix_cons_iff.mp hp with rfl | ⟨q, rfl, hq⟩
        · rfl
        · exact absurd (by rw [prefix_nil.mp hq]) hne
    · obtain ⟨rest, hrest, rfl⟩ := Option.map_eq_some_iff.mp h
      have hval : value.toNat = 128 * (value >>> 7).toNat + value.toNat % 128 := by
        rw [toNat_shiftRight_seven, Nat.div_add_mod]
      have hne : (value >>> 7).toNat ≠ 0 := fun h0 => hlast (UInt64.toNat_inj.mp h0)
      have hpow : 2 ^ (bits + 7) = 128 * 2 ^ bits := by rw [Nat.pow_add, Nat.mul_comm]
      have hsum : value.toNat * 2 ^ bits =
          value.toNat % 128 * 2 ^ bits + (value >>> 7).toNat * 2 ^ (bits + 7) := by
        rw [hpow]
        nth_rewrite 1 [hval]
        ring
      have hbits' : bits + 7 < 64 := by
        have := Nat.mul_le_mul_right (2 ^ (bits + 7)) (Nat.pos_of_ne_zero hne)
        exact (Nat.pow_lt_pow_iff_right (by decide)).mp (by omega : 2 ^ (bits + 7) < 2 ^ 64)
      obtain ⟨hread, hshort⟩ := ih hrest (by omega) hbits' (i + 1)
        (acc + UInt64.ofNat (value.toNat % 128 * 2 ^ bits))
      have hstep : ∀ s, varintDecodeLoop ((value.toUInt8 ||| 0x80) :: s) i bits acc =
          varintDecodeLoop s (i + 1) (bits + 7)
            (acc + UInt64.ofNat (value.toNat % 128 * 2 ^ bits)) := by
        intro s
        rw [varintDecodeLoop, if_neg hmore, toUInt64_shiftLeft _ hbits, hlow, hbyte]
      constructor
      · intro t
        rw [cons_append, hstep, hread, hsum, UInt64.ofNat_add, UInt64.add_assoc, length_cons]
        congr 1
        omega
      · intro p hp hne
        rcases prefix_cons_iff.mp hp with rfl | ⟨q, rfl, hq⟩
        · rfl
        · rw [hstep]
          exact hshort q hq fun heq => hne (by rw [heq])

/-- Every number is written in one to ten bytes, which are read back with anything behind them,
and no proper prefix of them is a number. -/
def RoundTrips {α : Type} (encode : α → Option (List UInt8)) (decode : List UInt8 → Int × α) :
    Prop :=
  ∀ v, ∃ bytes, encode v = some bytes ∧ 1 ≤ bytes.length ∧ bytes.length ≤ 10 ∧
    (∀ t, decode (bytes ++ t) = ((bytes.length : Int), v)) ∧
    ∀ p, p <+: bytes → p ≠ bytes → (decode p).1 = -1

theorem varint_roundTrips : RoundTrips varintEncode varintDecode := by
  intro v
  have hlt := v.toNat_lt
  obtain ⟨bytes, hbytes, hpos, hle⟩ :=
    exists_varintEncodeLoop (k := 10) (by decide) (by omega : v.toNat < 128 ^ 10) 6
  have hfit : v.toNat * 2 ^ 0 < 2 ^ 64 := by rwa [Nat.pow_zero, Nat.mul_one]
  obtain ⟨hread, hshort⟩ := varintDecodeLoop_encode hbytes hfit (by decide) 0 0
  refine ⟨bytes, hbytes, hpos, hle, fun t => ?_, hshort⟩
  rw [varintDecode, hread]
  simp

/-- Both codecs, at every number of 64 bits. -/
theorem codecs_roundTrip :
    RoundTrips tbxZigzagEncode tbxZigzagDecode ∧ RoundTrips varintEncode varintDecode := by
  refine ⟨fun v => ?_, varint_roundTrips⟩
  obtain ⟨bytes, hbytes, hpos, hle, hread, hshort⟩ := varint_roundTrips (zigzag v)
  refine ⟨bytes, hbytes, hpos, hle, fun t => ?_, hshort⟩
  simp [tbxZigzagDecode, hread, unzigzag_zigzag]

end LStore.Toolbox
