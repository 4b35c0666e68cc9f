import Factbase.Fault
import Factbase.Numeric.Power

/-!
# Widths

The number of bits that tell `size` indices apart, at least one:

* `bitsFor`: the width for any size, with its two bounds (`le_twoPow_bitsFor`,
  `twoPow_lt_of_lt_bitsFor`);
* `widthOf`: the same with a check, which fails where the next power of two is no 64-bit word;
* `wordBitsFor`: the same for a 64-bit size.
-/

namespace Factbase

/-- The least `w ≥ 1` with `size ≤ twoPow w`. -/
def bitsFor (size : Nat) : Nat :=
  if size ≤ 2 then 1 else (size - 1).log2 + 1

/-- The width of a size: beyond `twoPow 63` the search for a power of two overflows. -/
def widthOf (size : Nat) : Except Fault Nat :=
  if twoPow 63 < size then .error .overflow else .ok (bitsFor size)

/-- The width of a 64-bit size. -/
def wordBitsFor (size : UInt64) : Except Fault Nat := widthOf size.toNat

theorem one_le_bitsFor (size : Nat) : 1 ≤ bitsFor size := by
  unfold bitsFor
  split <;> omega

theorem le_twoPow_bitsFor (size : Nat) : size ≤ twoPow (bitsFor size) := by
  unfold bitsFor
  split
  · exact Nat.le_trans (by assumption) (Nat.le_refl 2)
  · have : size - 1 < twoPow ((size - 1).log2 + 1) := Nat.lt_log2_self
    omega

/-- No smaller width will do. -/
theorem twoPow_lt_of_lt_bitsFor {size w : Nat} (hw : 1 ≤ w) (h : w < bitsFor size) :
    twoPow w < size := by
  unfold bitsFor at h
  split at h
  · omega
  · rename_i hs
    have hle : twoPow w ≤ twoPow (size - 1).log2 := twoPow_le_twoPow (by omega)
    have : twoPow (size - 1).log2 ≤ size - 1 := Nat.log2_self_le (by omega)
    omega

end Factbase
