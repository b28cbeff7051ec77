import Mathlib.Data.Nat.ModEq
import Mathlib.Data.Nat.Size

/-!
# Powers of two, by shifts

To find the next power of two, the bits below the highest one of a number are all set, and one
is added. They are set by or-ing the number with itself shifted by 1, then by 2, by 4 and so
on. After `k` rounds, a bit is set if one of the `2 ^ k` bits from it upwards was, so that `k`
rounds do for numbers of up to `2 ^ k` bits.
-/

namespace Nat

/-- `v |= v >> 2 ^ i`, for each `i` below `k`. -/
def smear (v : Nat) : Nat → Nat
  | 0 => v
  | k + 1 => smear v k ||| smear v k >>> 2 ^ k

/-- What is set after `k` rounds. -/
theorem testBit_smear (v k i : Nat) :
    (smear v k).testBit i = true ↔ ∃ j < 2 ^ k, v.testBit (i + j) = true := by
  induction k generalizing i with
  | zero =>
    rw [smear, Nat.pow_zero]
    constructor
    · intro h
      exact ⟨0, Nat.one_pos, h⟩
    · rintro ⟨j, hj, h⟩
      obtain rfl : j = 0 := by omega
      exact h
  | succ k ih =>
    rw [smear, testBit_or, testBit_shiftRight, Bool.or_eq_true, ih, ih, Nat.pow_succ]
    constructor
    · rintro (⟨j, hj, h⟩ | ⟨j, hj, h⟩)
      · exact ⟨j, by omega, h⟩
      · exact ⟨2 ^ k + j, by omega, by rwa [← Nat.add_assoc, Nat.add_comm i]⟩
    · rintro ⟨j, hj, h⟩
      by_cases hlow : j < 2 ^ k
      · exact Or.inl ⟨j, hlow, h⟩
      · refine Or.inr ⟨j - 2 ^ k, by omega, ?_⟩
        rwa [show 2 ^ k + i + (j - 2 ^ k) = i + j by omega]

/-- All bits are set, up to the highest one. -/
theorem smear_add_one {v k : Nat} (h : v < 2 ^ 2 ^ k) : smear v k + 1 = 2 ^ v.size := by
  have hsize : v.size ≤ 2 ^ k := size_le.mpr h
  have hbits : smear v k = 2 ^ v.size - 1 := by
    refine eq_of_testBit_eq fun i => Bool.eq_iff_iff.mpr ?_
    rw [testBit_smear, testBit_two_pow_sub_one, decide_eq_true_iff, lt_size]
    constructor
    · rintro ⟨j, -, hj⟩
      have hpow : 2 ^ i ≤ 2 ^ (i + j) := Nat.pow_le_pow_right Nat.two_pos (Nat.le_add_right i j)
      exact Nat.le_trans hpow (ge_two_pow_of_testBit hj)
    · intro hi
      -- some bit from `i` upwards is set, and all there are lie below `2 ^ k`
      obtain ⟨j, hij, hj⟩ := exists_ge_and_testBit_of_ge_two_pow hi
      have hj' : j < v.size := lt_size.mpr (ge_two_pow_of_testBit hj)
      exact ⟨j - i, by omega, by rwa [Nat.add_sub_cancel' hij]⟩
  have hpos : 0 < 2 ^ v.size := Nat.two_pow_pos _
  omega

/-- No bit is common to a number and the one before it only if it is a power of two. -/
theorem le_of_and_pred {v n : Nat} (h : v &&& (v - 1) = 0) (hv : v < 2 ^ (n + 1)) :
    v ≤ 2 ^ n := by
  refine Nat.le_of_not_lt fun hlt => ?_
  -- both have the bit `n` for their highest one
  have hbit : ∀ u, 2 ^ n ≤ u → u ≤ v → u.testBit n = true := fun u hle hu =>
    testBit_of_two_pow_le_and_two_pow_add_one_gt hle (by omega)
  have hand : (v &&& (v - 1)).testBit n = true := by
    rw [testBit_and, hbit v (by omega) (Nat.le_refl v), hbit (v - 1) (by omega) (by omega)]
    rfl
  rw [h, zero_testBit] at hand
  cases hand

end Nat
