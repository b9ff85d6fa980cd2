import Mathlib.Data.Nat.Log
import Mathlib.Algebra.Order.Ring.Nat

/-!
# Alignment in words of `w` bits

Rounding up to a power of two adds and masks, so it either rounds up or wraps
around to zero.
-/

namespace OneTbb.Alignment

variable {w k x al : Nat}

/-- `x & ~(al-1)`, for a power of two. -/
def alignDown (x al : Nat) : Nat := x / al * al

/-- `(x + (al-1)) & ~(al-1)` in `w` bits, for a power of two. -/
def alignUp (w x al : Nat) : Nat := alignDown ((x + (al - 1)) % 2 ^ w) al

theorem alignDown_le (x al : Nat) : alignDown x al ≤ x := Nat.div_mul_le_self x al

theorem dvd_alignDown (x al : Nat) : al ∣ alignDown x al := Nat.dvd_mul_left al (x / al)

theorem lt_alignDown_add (x : Nat) (h : 0 < al) : x < alignDown x al + al := by
  have := Nat.div_add_mod x al
  have := Nat.mod_lt x h
  rw [alignDown, mul_comm]
  omega

/-- Rounding down does not pass an aligned number. -/
theorem le_alignDown {y : Nat} (h : y ≤ x) (hy : al ∣ y) : y ≤ alignDown x al := by
  obtain ⟨c, rfl⟩ := hy
  rcases Nat.eq_zero_or_pos al with rfl | hpos
  · simp
  · rw [alignDown, mul_comm]
    exact Nat.mul_le_mul_right al ((Nat.le_div_iff_mul_le hpos).mpr (by rwa [mul_comm]))

/-- Masking with the negation of a power of two, as a word, rounds down. -/
theorem and_mask (hx : x < 2 ^ w) (hk : k ≤ w) :
    x &&& (2 ^ w - 2 ^ k) = alignDown x (2 ^ k) := by
  have hmask : 2 ^ w - 2 ^ k = (2 ^ (w - k) - 1) * 2 ^ k := by
    rw [Nat.sub_mul, ← Nat.pow_add, Nat.sub_add_cancel hk, one_mul]
  apply Nat.eq_of_testBit_eq
  intro i
  rw [Nat.testBit_and, hmask, alignDown, Nat.testBit_mul_two_pow, Nat.testBit_mul_two_pow,
    Nat.testBit_two_pow_sub_one, Nat.testBit_div_two_pow]
  by_cases hi : k ≤ i
  · rw [Nat.sub_add_cancel hi]
    by_cases hw : i < w
    · simp [hi, show i - k < w - k by omega]
    · have hle : 2 ^ w ≤ 2 ^ i := Nat.pow_le_pow_right (by decide) (by omega)
      have hbit : x.testBit i = false := Nat.testBit_lt_two_pow (lt_of_lt_of_le hx hle)
      simp [hbit]
  · simp [hi]

theorem dvd_alignUp (w x al : Nat) : al ∣ alignUp w x al := dvd_alignDown _ al

theorem alignUp_of_lt (h : x + (al - 1) < 2 ^ w) (hal : 0 < al) :
    x ≤ alignUp w x al ∧ alignUp w x al ≤ x + (al - 1) := by
  rw [alignUp, Nat.mod_eq_of_lt h]
  have := lt_alignDown_add (x + (al - 1)) hal
  have := alignDown_le (x + (al - 1)) al
  omega

theorem alignUp_of_le (hx : x < 2 ^ w) (h : 2 ^ w ≤ x + (al - 1)) (hal : al ≤ 2 ^ w) :
    alignUp w x al = 0 := by
  have hmod : (x + (al - 1)) % 2 ^ w = x + (al - 1) - 2 ^ w := by
    rw [Nat.mod_eq_sub_mod h, Nat.mod_eq_of_lt (by omega)]
  rw [alignUp, hmod, alignDown, Nat.div_eq_of_lt (by omega), zero_mul]

theorem alignUp_le (w x al : Nat) : alignUp w x al ≤ x + (al - 1) :=
  le_trans (alignDown_le _ al) (Nat.mod_le _ _)

theorem alignUp_le_of_dvd {y : Nat} (h : x ≤ y) (hy : al ∣ y) (hal : 0 < al) :
    alignUp w x al ≤ y := by
  obtain ⟨c, rfl⟩ := hy
  have hle := alignUp_le w x al
  obtain ⟨d, hd⟩ := dvd_alignUp w x al
  rw [hd] at hle ⊢
  apply Nat.mul_le_mul_left
  by_contra hlt
  have : al * (c + 1) ≤ al * d := Nat.mul_le_mul_left al (by omega)
  rw [mul_add] at this
  omega

end OneTbb.Alignment
