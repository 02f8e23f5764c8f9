import Mathlib.Data.Nat.Bitwise

/-! # Masks on natural numbers

Every mask of the page version word is a single bit or a contiguous run of ones
that lines up with one field. These lemmas turn masking, setting and clearing into
`+`, `-`, `/` and `%` on the word's value, so that `omega` can finish the field
arithmetic of the operations modelled later.
-/

namespace Foedus.Assorted.BitField

theorem lor_add_land (a b : ℕ) : (a ||| b) + (a &&& b) = a + b := by
  induction a using Nat.strongRecOn generalizing b with
  | ind a ih =>
    rcases Nat.eq_zero_or_pos a with rfl | ha
    · simp
    · have hih := ih (a / 2) (Nat.div_lt_self ha Nat.one_lt_two) (b / 2)
      have hor := Nat.div_add_mod (a ||| b) 2
      have hand := Nat.div_add_mod (a &&& b) 2
      have hor2 : (a ||| b) % 2 = 1 ↔ a % 2 = 1 ∨ b % 2 = 1 := Nat.or_mod_two_eq_one
      have hand2 : (a &&& b) % 2 = 1 ↔ a % 2 = 1 ∧ b % 2 = 1 := Nat.and_mod_two_eq_one
      rw [Nat.or_div_two] at hor
      rw [Nat.and_div_two] at hand
      omega

theorem lor_eq_add_of_land_eq_zero {a b : ℕ} (h : a &&& b = 0) : a ||| b = a + b := by
  have := lor_add_land a b
  omega

theorem land_two_pow (n k : ℕ) : n &&& 2 ^ k = n / 2 ^ k % 2 * 2 ^ k := by
  rw [Nat.and_two_pow, Nat.toNat_testBit]

theorem lor_two_pow (n k : ℕ) : n ||| 2 ^ k = n + 2 ^ k - n / 2 ^ k % 2 * 2 ^ k := by
  have := lor_add_land n (2 ^ k)
  rw [land_two_pow] at this
  omega

theorem lor_one (n : ℕ) : n ||| 1 = n + 1 - n % 2 := by
  simpa using lor_two_pow n 0

/-- Masking with a run of `w` ones at offset `o` keeps exactly that field. -/
theorem land_mask (n o w : ℕ) : n &&& (2 ^ w - 1) <<< o = (n >>> o % 2 ^ w) <<< o := by
  apply Nat.eq_of_testBit_eq
  intro i
  simp only [Nat.testBit_and, Nat.testBit_shiftLeft, Nat.testBit_two_pow_sub_one,
    Nat.testBit_mod_two_pow, Nat.testBit_shiftRight]
  by_cases h : o ≤ i
  · simp [h, Nat.add_sub_cancel' h, Bool.and_comm]
  · simp [h]

/-- The bits below `a + b` are those below `a` and the `b` bits from `a` up. -/
theorem mod_two_pow_add (n a b : ℕ) :
    n % 2 ^ (a + b) = n % 2 ^ a + n / 2 ^ a % 2 ^ b * 2 ^ a := by
  rw [Nat.pow_add, Nat.mod_mul, Nat.mul_comm]

theorem mod_two_pow_add_one (n a : ℕ) :
    n % 2 ^ (a + 1) = n % 2 ^ a + n / 2 ^ a % 2 * 2 ^ a := by
  rw [mod_two_pow_add, Nat.pow_one]

/-- Two numbers whose ones lie below and above bit `k` share no bit. -/
theorem land_eq_zero_of_lt_of_mod {a b k : ℕ} (ha : a < 2 ^ k) (hb : b % 2 ^ k = 0) :
    a &&& b = 0 := by
  apply Nat.eq_of_testBit_eq
  intro i
  rw [Nat.testBit_and, Nat.zero_testBit]
  by_cases hi : i < k
  · have h := Nat.testBit_mod_two_pow b k i
    simp only [hb, Nat.zero_testBit, hi, decide_True, Bool.true_and] at h
    simp [← h]
  · have : a < 2 ^ i := lt_of_lt_of_le ha (Nat.pow_le_pow_right Nat.two_pos (by omega))
    simp [Nat.testBit_lt_two_pow this]

theorem lor_eq_add_of_lt_of_mod {a b k : ℕ} (ha : a < 2 ^ k) (hb : b % 2 ^ k = 0) :
    a ||| b = a + b :=
  lor_eq_add_of_land_eq_zero (land_eq_zero_of_lt_of_mod ha hb)

theorem toNat_decide_mod_two (a : ℕ) : (decide (a % 2 = 1)).toNat = a % 2 := by
  rcases Nat.mod_two_eq_zero_or_one a with h | h <;> simp [h]

theorem toNat_decide (p : Prop) [Decidable p] : (decide p).toNat = if p then 1 else 0 := by
  by_cases h : p <;> simp [h]

theorem decide_toNat_eq_one (b : Bool) : decide (b.toNat = 1) = b := by
  cases b <;> rfl

/-- Clearing the bits of `c` removes from `x` exactly its part under `c`. -/
theorem toNat_and_not_add {w : ℕ} (x c : BitVec w) :
    (x &&& ~~~c).toNat + (x &&& c).toNat = x.toNat := by
  have hdis : (x &&& ~~~c) &&& (x &&& c) = 0#w := by
    ext i
    simp only [BitVec.getLsbD_and, BitVec.getLsbD_not, BitVec.getLsbD_zero]
    cases x.getLsbD i <;> cases c.getLsbD i <;> simp
  rw [← BitVec.toNat_add_of_and_eq_zero hdis, BitVec.add_eq_or_of_and_eq_zero _ _ hdis]
  congr 1
  ext i
  simp only [BitVec.getLsbD_and, BitVec.getLsbD_not, BitVec.getLsbD_or, i.isLt, decide_True]
  cases x.getLsbD i <;> cases c.getLsbD i <;> simp

end Foedus.Assorted.BitField
