/-!
# Machine integers

Values kept in the fixed-width types of C, as integers: what does not fit wraps around.
-/

namespace MachineInt

/-- A value stored in an `int64_t`. -/
def i64 (x : Int) : Int :=
  if 9223372036854775808 ≤ x % 18446744073709551616 then
    x % 18446744073709551616 - 18446744073709551616
  else x % 18446744073709551616

/-- A value stored in an `int`. -/
def i32 (x : Int) : Int :=
  if 2147483648 ≤ x % 4294967296 then x % 4294967296 - 4294967296 else x % 4294967296

/-- A value converted to a `size_t`. -/
def sizeT (x : Int) : Nat := (x % 18446744073709551616).toNat

theorem i64_ge (x : Int) : -9223372036854775808 ≤ i64 x := by
  unfold i64
  omega

theorem i32_eq_self {x : Int} (hlo : -2147483648 ≤ x) (hhi : x < 2147483648) : i32 x = x := by
  unfold i32
  omega

@[simp] theorem i32_zero : i32 0 = 0 := by decide

@[simp] theorem sizeT_zero : sizeT 0 = 0 := by decide

theorem i32_natCast {n : Nat} (h : n < 2147483648) : i32 n = n :=
  i32_eq_self (by omega) (by omega)

theorem toNat_i32 {n : Nat} (h : n < 2147483648) : (i32 n).toNat = n := by
  rw [i32_natCast h, Int.toNat_natCast]

theorem sizeT_natCast {n : Nat} (h : n < 18446744073709551616) : sizeT n = n := by
  unfold sizeT
  omega

theorem sizeT_sub {a b : Nat} (hle : b ≤ a) (ha : a < 18446744073709551616) :
    sizeT (a - b) = a - b := by
  unfold sizeT
  omega

theorem sizeT_i32 {n : Nat} (h : n < 2147483648) : sizeT (i32 n) = n := by
  rw [i32_natCast h, sizeT_natCast (by omega)]

end MachineInt
