import Mathlib.Data.Nat.ModEq
import Mathlib.Data.Nat.Bitwise

/-!
# Wrapping counters and rings of a power-of-two size

Counters of `w` bits are kept modulo `2 ^ w`. As long as two counters are less
than `2 ^ w` apart, their wrapped difference is their difference. A ring of
`2 ^ j` slots places the entry with number `i` at `i % 2 ^ j`, whether the
number is wrapped or not.
-/

namespace OneTbb.RingIndex

open Nat

variable {w j : Nat}

theorem wrap_mod (h : j ≤ w) (i : Nat) : i % 2 ^ w % 2 ^ j = i % 2 ^ j :=
  mod_mod_of_dvd i (Nat.pow_dvd_pow 2 h)

theorem slot_injective {n low i k : Nat} (hi : low ≤ i) (hi' : i < low + n) (hk : low ≤ k)
    (hk' : k < low + n) (h : i % n = k % n) : i = k := by
  obtain ⟨a, rfl⟩ := Nat.exists_eq_add_of_le hi
  obtain ⟨b, rfl⟩ := Nat.exists_eq_add_of_le hk
  have hab : a ≡ b [MOD n] := Nat.ModEq.add_left_cancel' low h
  have := Nat.ModEq.eq_of_lt_of_lt hab (by omega) (by omega)
  omega

theorem exists_in_window {n i : Nat} (low : Nat) (hi : i < n) :
    ∃ j, low ≤ j ∧ j < low + n ∧ j % n = i := by
  have hdiv := div_add_mod low n
  have hmod := mod_lt low (zero_lt_of_lt hi)
  rcases lt_or_ge i (low % n) with hlt | hge
  · refine ⟨n * (low / n + 1) + i, ?_, ?_, ?_⟩
    · rw [mul_add]
      omega
    · rw [mul_add]
      omega
    · rw [mul_add_mod, mod_eq_of_lt hi]
  · refine ⟨n * (low / n) + i, by omega, by omega, ?_⟩
    rw [mul_add_mod, mod_eq_of_lt hi]

/-- The difference of two counters that are less than `2 ^ w` apart. -/
theorem wrap_sub {i low : Nat} (h : low ≤ i) (h' : i < low + 2 ^ w) :
    (i % 2 ^ w + 2 ^ w - low % 2 ^ w) % 2 ^ w = i - low := by
  have hlow : low % 2 ^ w < 2 ^ w := mod_lt _ (Nat.two_pow_pos w)
  have hmod : (i % 2 ^ w + 2 ^ w - low % 2 ^ w) ≡ i - low [MOD 2 ^ w] := by
    refine Nat.ModEq.add_right_cancel' (low % 2 ^ w) ?_
    rw [Nat.sub_add_cancel (by omega)]
    calc i % 2 ^ w + 2 ^ w ≡ i + 0 [MOD 2 ^ w] :=
          Nat.ModEq.add (mod_modEq i _) (by simp [Nat.ModEq])
      _ = i - low + low := by omega
      _ ≡ i - low + low % 2 ^ w [MOD 2 ^ w] :=
          Nat.ModEq.add_left _ (mod_modEq low _).symm
  rw [hmod, mod_eq_of_lt (by omega)]

/-- Two counters that are less than `2 ^ w` apart are equal if their wrapped
values are. -/
theorem wrap_eq_iff {i low : Nat} (h : low ≤ i) (h' : i < low + 2 ^ w) :
    i % 2 ^ w = low % 2 ^ w ↔ i = low :=
  ⟨fun he => slot_injective h h' le_rfl (by have := Nat.two_pow_pos w; omega) he,
    fun he => by rw [he]⟩

end OneTbb.RingIndex
