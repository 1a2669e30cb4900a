import Mathlib.Algebra.Group.Nat.Defs

/-! Words of 64 bits: casts between signed and unsigned ones where both stand for the
same number, and signed arithmetic that does not overflow. -/
namespace Libiapp.Words

theorem castToNat {x : Int64} (nonneg : 0 ≤ x.toInt) : (x.toUInt64.toNat : Int) = x.toInt := by
  have signed : 0 ≤ x := by simpa [Int64.le_iff_toInt_le] using nonneg
  rw [Int64.toNat_toUInt64_of_le signed,← Int64.toNat_toInt,Int.toNat_of_nonneg nonneg]

theorem castToInt {x : UInt64} (small : x.toNat < 0x8000000000000000) : x.toInt64.toInt = x.toNat := by
  have half : 2 * x.toBitVec.toNat < 2^64 := by
    rw [UInt64.toNat_toBitVec]
    omega
  exact BitVec.toInt_eq_toNat_of_lt half

theorem addToNat {x y : UInt64} (small : x.toNat + y.toNat < 0x10000000000000000) :
    (x + y).toNat = x.toNat + y.toNat := by
  rw [UInt64.toNat_add,Nat.mod_eq_of_lt small]

/- Signed arithmetic whose result can be represented. -/
theorem inRange {x : Int} (low : -0x8000000000000000 ≤ x) (high : x < 0x8000000000000000) : x.bmod (2^64) = x :=
  Int.bmod_eq_of_le (by omega) (by omega)

theorem addToInt {x y : Int64} (low : -0x8000000000000000 ≤ x.toInt + y.toInt)
    (high : x.toInt + y.toInt < 0x8000000000000000) : (x + y).toInt = x.toInt + y.toInt := by
  rw [Int64.toInt_add,inRange low high]

theorem subToInt {x y : Int64} (low : -0x8000000000000000 ≤ x.toInt - y.toInt)
    (high : x.toInt - y.toInt < 0x8000000000000000) : (x - y).toInt = x.toInt - y.toInt := by
  rw [Int64.toInt_sub,inRange low high]

theorem mulToInt {x y : Int64} (low : -0x8000000000000000 ≤ x.toInt * y.toInt)
    (high : x.toInt * y.toInt < 0x8000000000000000) : (x * y).toInt = x.toInt * y.toInt := by
  rw [Int64.toInt_mul,inRange low high]

end Libiapp.Words
