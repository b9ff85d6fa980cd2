import Mathlib.Algebra.Order.Field.Basic
import Mathlib.Tactic.FieldSimp
import Mathlib.Tactic.Linarith

/-!
# Handing out a total in proportion to weights

A total `k` is handed out to weights that sum up to `d`, one weight after the
other. A weight gets the whole part of its proportion, and what is left over is
carried to the next one. Division is the one of C: it truncates towards zero.
-/

namespace OneTbb.Apportion

/-- What a weight gets, with the rest `c` carried from the weights before it. -/
def share (k d w c : Int) : Int := (w * k + c).tdiv d

/-- What is carried on. -/
def rest (k d w c : Int) : Int := (w * k + c).tmod d

variable {k d w c : Int}

theorem share_mul_add_rest (k d w c : Int) : share k d w c * d + rest k d w c = w * k + c :=
  Int.tdiv_mul_add_tmod (w * k + c) d

section Weights

variable (hk : 0 ≤ k) (hd : 0 < d) (hw : 0 ≤ w) (hc : 0 ≤ c)

include hk hd hw hc

theorem share_nonneg : 0 ≤ share k d w c :=
  Int.tdiv_nonneg (by positivity) hd.le

omit hd in
theorem rest_nonneg : 0 ≤ rest k d w c :=
  Int.tmod_nonneg d (by positivity)

omit hk hw hc in
theorem rest_lt : rest k d w c < d := Int.tmod_lt_of_pos _ hd

/-- Nothing gets more than its weight when the total is no more than the weights. -/
theorem share_le (hkd : k ≤ d) (hcd : c < d) : share k d w c ≤ w := by
  have hsplit := share_mul_add_rest k d w c
  have hrest := rest_nonneg (d := d) hk hw hc
  have hwk : w * k ≤ w * d := Int.mul_le_mul_of_nonneg_left hkd hw
  have hlt : share k d w c * d < (w + 1) * d := by linarith
  have := lt_of_mul_lt_mul_right hlt hd.le
  omega

/-- A share is less than one away from the exact proportion. -/
theorem share_near (hcd : c < d) : |(share k d w c : ℚ) - w * k / d| < 1 := by
  have hsplit := share_mul_add_rest k d w c
  have hrest := rest_nonneg (d := d) hk hw hc
  have hlt := rest_lt (k := k) (w := w) (c := c) hd
  have hpos : (0 : ℚ) < d := by exact_mod_cast hd
  have hdiff : (share k d w c : ℚ) - w * k / d = ((c - rest k d w c : Int) : ℚ) / d := by
    have : (share k d w c : ℚ) * d + rest k d w c = w * k + c := by exact_mod_cast hsplit
    push_cast
    field_simp
    linarith
  rw [hdiff, abs_div, abs_of_pos hpos, div_lt_one hpos]
  have hsmall : |c - rest k d w c| < d := by
    rw [abs_lt]
    constructor <;> omega
  exact_mod_cast hsmall

end Weights

/-- Once all weights are served the total is handed out and nothing is carried. -/
theorem total_and_rest_zero {s : Int} (h : s * d + c = d * k) (hc : 0 ≤ c) (hcd : c < d) :
    s = k ∧ c = 0 := by
  have hd : 0 < d := by omega
  have hmul : c = (k - s) * d := by linarith
  have hlt : (k - s) * d < 1 * d := by omega
  have hge : (-1) * d < (k - s) * d := by omega
  have h₁ := lt_of_mul_lt_mul_right hlt hd.le
  have h₂ := lt_of_mul_lt_mul_right hge hd.le
  obtain rfl : s = k := by omega
  exact ⟨rfl, by rw [hmul, sub_self, zero_mul]⟩

end OneTbb.Apportion
