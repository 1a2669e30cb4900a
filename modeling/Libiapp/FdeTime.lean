import Libiapp.Fde
import Libiapp.Words

/-! Normalised times. On them timeval_cmp, which compares the fields as unsigned
numbers, is the order of the number of microseconds. -/
namespace Libiapp.Event
open Words

def Timeval.usecs (t : Timeval) : Int := t.tvSec.toInt*1000000 + t.tvUsec.toInt

def Timeval.Normal (t : Timeval) : Prop := 0 ≤ t.tvSec ∧ 0 ≤ t.tvUsec ∧ t.tvUsec < 1000000
instance (t : Timeval) : Decidable t.Normal := by unfold Timeval.Normal; infer_instance

theorem normalIff (t : Timeval) :
    t.Normal ↔ 0 ≤ t.tvSec.toInt ∧ 0 ≤ t.tvUsec.toInt ∧ t.tvUsec.toInt < 1000000 := by
  simp only [Timeval.Normal,Int64.le_iff_toInt_le,Int64.lt_iff_toInt_lt]
  rfl

theorem normalUsec {t : Timeval} (normal : t.Normal) : 0 ≤ t.tvUsec.toInt ∧ t.tvUsec.toInt < 1000000 :=
  ((normalIff t).mp normal).2

theorem normalSec {t : Timeval} (normal : t.Normal) : 0 ≤ t.tvSec.toInt := ((normalIff t).mp normal).1

theorem timevalCmpNormal {a b : Timeval} (left : a.Normal) (right : b.Normal) :
    timevalCmp a b = (if b.usecs < a.usecs then 1 else 0) - (if a.usecs < b.usecs then 1 else 0) := by
  have usecA := normalUsec left
  have usecB := normalUsec right
  by_cases same : a.tvSec = b.tvSec
  · have first := castToNat usecA.1
    have second := castToNat usecB.1
    have sec : a.tvSec.toInt = b.tvSec.toInt := by rw [same]
    simp only [timevalCmp,same,ne_eq,not_true_eq_false,if_false,Timeval.usecs,UInt64.lt_iff_toNat_lt]
    congr 1 <;> · congr 1; simp only [eq_iff_iff]; omega
  · have first := castToNat (normalSec left)
    have second := castToNat (normalSec right)
    have sec : a.tvSec.toInt ≠ b.tvSec.toInt := fun h => same (Int64.toInt_inj.mp h)
    simp only [timevalCmp,same,ne_eq,not_false_eq_true,if_true,Timeval.usecs,UInt64.lt_iff_toNat_lt]
    congr 1 <;> · congr 1; simp only [eq_iff_iff]; omega

theorem cmpNonpos {a b : Timeval} (left : a.Normal) (right : b.Normal) :
    timevalCmp a b ≤ 0 ↔ a.usecs ≤ b.usecs := by
  rw [timevalCmpNormal left right]
  split <;> split <;> omega

theorem cmpNonneg {a b : Timeval} (left : a.Normal) (right : b.Normal) :
    0 ≤ timevalCmp a b ↔ b.usecs ≤ a.usecs := by
  rw [timevalCmpNormal left right]
  split <;> split <;> omega

/- With fields that are not negative timeval_cmp compares seconds first. -/
theorem cmpNonnegFields {a b : Timeval} (secA : 0 ≤ a.tvSec.toInt) (usecA : 0 ≤ a.tvUsec.toInt)
    (secB : 0 ≤ b.tvSec.toInt) (usecB : 0 ≤ b.tvUsec.toInt) :
    0 ≤ timevalCmp a b ↔ b.tvSec.toInt < a.tvSec.toInt ∨
      a.tvSec.toInt = b.tvSec.toInt ∧ b.tvUsec.toInt ≤ a.tvUsec.toInt := by
  by_cases same : a.tvSec = b.tvSec
  · have first := castToNat usecA
    have second := castToNat usecB
    have sec : a.tvSec.toInt = b.tvSec.toInt := by rw [same]
    rw [sec]
    simp only [timevalCmp,same,ne_eq,not_true_eq_false,if_false,UInt64.lt_iff_toNat_lt,Int.lt_irrefl,false_or,true_and]
    split <;> split <;> omega
  · have first := castToNat secA
    have second := castToNat secB
    have sec : a.tvSec.toInt ≠ b.tvSec.toInt := fun h => same (Int64.toInt_inj.mp h)
    simp only [timevalCmp,same,ne_eq,not_false_eq_true,if_true,UInt64.lt_iff_toNat_lt]
    split <;> split <;> omega

end Libiapp.Event
