/-!
# Powers of two and ten

Powers as they occur in sizes, widths and words.

* `twoPow`: the number of patterns of a number of bits;
* `tenPow`: the weight of a decimal place.
-/

namespace Factbase

/-- The number of patterns of `bits` bits. -/
abbrev twoPow (bits : Nat) : Nat := Nat.pow 2 bits

/-- The weight of a decimal place. -/
abbrev tenPow (place : Nat) : Nat := Nat.pow 10 place

theorem twoPow_pos (bits : Nat) : 0 < twoPow bits := Nat.pow_pos (by decide)

theorem twoPow_le_twoPow {a b : Nat} (h : a ≤ b) : twoPow a ≤ twoPow b :=
  Nat.pow_le_pow_right (by decide) h

end Factbase
