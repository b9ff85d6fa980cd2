import OneTbb.Malloc.LargeObjectUse

/-!
# Size classes of large objects

The large bins lie on a linear grid and the huge bins on eight steps per octave. Every step
divides the steps of the larger sizes, so that rounding up keeps the order of sizes, and the
bins of rounded sizes come in the order of the sizes.
-/

namespace OneTbb.Malloc.LargeObjectCache

open OneTbb.Alignment Nat

/-- `NumBins` of the large bins -/
def numLargeBins : Nat := (maxLargeSize - minLargeSize) / cacheStep

/-- `NumBins` of the huge bins -/
def numHugeBins (P : Platform) : Nat := ((maxHugeSize P).log2 - maxLargeSize.log2) * 8

/-- The index of a bin among all, as `putList` sorts by it. -/
def Bin.order : Bin → Nat
  | .large idx => idx
  | .huge idx => numLargeBins + idx

/-- The index is below the number of bins. -/
def Bin.InBounds (P : Platform) : Bin → Prop
  | .large idx => idx < numLargeBins
  | .huge idx => idx < numHugeBins P

/-- The step of the bins around a size. -/
def stepOf (size : Nat) : Nat := if size < maxLargeSize then cacheStep else 2 ^ (log2 size - 3)

/-- The sizes of the bins. -/
def OnBin (size : Nat) : Prop := stepOf size ∣ size

instance (size : Nat) : Decidable (OnBin size) := inferInstanceAs (Decidable (_ ∣ _))

variable {P : Platform} {size a b : Nat}

theorem alignToBin_eq (size : Nat) : P.alignToBin size = alignUp P.bits size (stepOf size) := by
  unfold Platform.alignToBin stepOf
  split <;> rfl

theorem stepOf_pos (size : Nat) : 0 < stepOf size := by
  unfold stepOf
  split
  · decide
  · exact Nat.two_pow_pos _

theorem log2_ge (h : maxLargeSize ≤ size) : 23 ≤ log2 size :=
  (le_log2 (by unfold maxLargeSize at h; omega)).mpr h

theorem log2_le_log2 (h : a ≤ b) : log2 a ≤ log2 b := by
  rw [log2_eq_log_two, log2_eq_log_two]
  exact Nat.log_mono_right h

theorem stepOf_dvd (h : a ≤ b) : stepOf a ∣ stepOf b := by
  unfold stepOf
  split
  · split
    · exact dvd_rfl
    · have := log2_ge (le_of_not_gt ‹¬b < maxLargeSize›)
      exact Nat.pow_dvd_pow (m := 13) 2 (by omega)
  · rw [if_neg (by omega)]
    apply Nat.pow_dvd_pow
    exact Nat.sub_le_sub_right (log2_le_log2 h) 3

/-- Every power of two of the huge sizes is a multiple of the steps up to it. -/
theorem stepOf_dvd_two_pow {k : Nat} (hk : 23 ≤ k) (h : size ≤ 2 ^ k) : stepOf size ∣ 2 ^ k := by
  apply dvd_trans (stepOf_dvd h)
  rw [stepOf, if_neg, log2_two_pow]
  · exact Nat.pow_dvd_pow 2 (by omega)
  · have := Nat.pow_le_pow_right (show 0 < 2 by decide) hk
    unfold maxLargeSize
    omega

theorem maxHugeSize_eq (P : Platform) : ∃ k, 23 ≤ k ∧ k < P.bits ∧ maxHugeSize P = 2 ^ k := by
  unfold maxHugeSize
  rcases P.bits_eq with h | h <;> rw [h]
  · exact ⟨31, by decide, by decide, rfl⟩
  · exact ⟨40, by decide, by decide, rfl⟩

theorem le_alignToBin (h : size ≤ maxHugeSize P) : size ≤ P.alignToBin size := by
  obtain ⟨k, hk, hbits, heq⟩ := maxHugeSize_eq P
  have hpos := Nat.two_pow_pos k
  have hstep := le_of_dvd hpos (stepOf_dvd_two_pow hk (heq ▸ h))
  have hwords : 2 ^ k * 2 ≤ 2 ^ P.bits := by
    rw [← pow_succ]
    exact Nat.pow_le_pow_right (by decide) hbits
  rw [alignToBin_eq]
  exact (alignUp_of_lt (by omega) (stepOf_pos size)).1

theorem alignToBin_le_of_dvd (h : a ≤ b) (hb : stepOf a ∣ b) : P.alignToBin a ≤ b := by
  rw [alignToBin_eq]
  exact alignUp_le_of_dvd h hb (stepOf_pos a)

theorem alignToBin_le_maxHugeSize (h : size < maxHugeSize P) : P.alignToBin size ≤ maxHugeSize P := by
  obtain ⟨k, hk, -, heq⟩ := maxHugeSize_eq P
  rw [heq] at h ⊢
  exact alignToBin_le_of_dvd h.le (stepOf_dvd_two_pow hk h.le)

/-- A size that is rounded up over a border between octaves is rounded to the border. -/
theorem onBin_alignToBin (h : size < maxHugeSize P) : OnBin (P.alignToBin size) := by
  have hle := le_alignToBin h.le
  have hdvd : stepOf size ∣ P.alignToBin size := by
    rw [alignToBin_eq]
    exact dvd_alignUp _ _ _
  obtain ⟨k, hk, hlow, hhigh⟩ : ∃ k, 23 ≤ k ∧ size < 2 ^ k ∧
      ∀ a, size ≤ a → a < 2 ^ k → stepOf a = stepOf size := by
    unfold stepOf
    by_cases hs : size < maxLargeSize
    · exact ⟨23, le_rfl, hs, fun a _ (ha : a < maxLargeSize) => by rw [if_pos hs, if_pos ha]⟩
    · refine ⟨log2 size + 1, by have := log2_ge (le_of_not_gt hs); omega, lt_log2_self, ?_⟩
      intro a hge hlt
      have hlog : log2 a = log2 size := by
        apply le_antisymm
        · have : log2 a < log2 size + 1 := (log2_lt (by unfold maxLargeSize at hs; omega)).mpr hlt
          omega
        · exact log2_le_log2 hge
      rw [if_neg hs, if_neg (by omega), hlog]
  rcases (alignToBin_le_of_dvd (P := P) hlow.le (stepOf_dvd_two_pow hk hlow.le)).lt_or_eq with
    hlt | heq
  · rwa [OnBin, hhigh _ hle hlt]
  · rw [OnBin, heq]
    exact stepOf_dvd_two_pow hk le_rfl

theorem alignToBin_mono (h : a ≤ b) (hb : b < maxHugeSize P) :
    P.alignToBin a ≤ P.alignToBin b := by
  apply alignToBin_le_of_dvd (le_trans h (le_alignToBin hb.le))
  rw [alignToBin_eq]
  exact dvd_trans (stepOf_dvd h) (dvd_alignUp _ _ _)

/-! ## The order of the bins -/

theorem sizeToIdx_huge (h : maxLargeSize ≤ a) (ha : OnBin a) : ∃ m, 8 ≤ m ∧ m < 16 ∧
    a = m * 2 ^ (log2 a - 3) ∧ sizeToIdx a = .huge ((log2 a - 23) * 8 + (m - 8)) := by
  obtain ⟨m, hm⟩ : 2 ^ (log2 a - 3) ∣ a := by
    have := ha
    rwa [OnBin, stepOf, if_neg (not_lt_of_ge h)] at this
  have hpos : 0 < 2 ^ (log2 a - 3) := Nat.two_pow_pos _
  obtain ⟨hlow, hhigh⟩ := step_bounds h
  have hpow : 2 ^ log2 a = 2 ^ (log2 a - 3) * 8 := by
    rw [← Nat.pow_add 2 _ 3, Nat.sub_add_cancel (by have := log2_ge h; omega)]
  refine ⟨m, ?_, ?_, by rw [mul_comm, ← hm], ?_⟩
  · by_contra hlt
    have := Nat.mul_le_mul_left (2 ^ (log2 a - 3)) (show m ≤ 7 by omega)
    omega
  · by_contra hge
    have := Nat.mul_le_mul_left (2 ^ (log2 a - 3)) (show 16 ≤ m by omega)
    omega
  · rw [sizeToIdx, if_neg (not_lt_of_ge h)]
    have hdiv : (a - 2 ^ log2 a) / 2 ^ (log2 a - 3) = m - 8 := by
      rw [hpow]
      nth_rewrite 1 [hm]
      rw [← Nat.mul_sub, Nat.mul_div_cancel_left _ hpos]
    exact congrArg (fun i => Bin.huge ((log2 a - 23) * 8 + i)) hdiv

theorem order_strictMonoOn :
    StrictMonoOn (fun a => (sizeToIdx a).order) {a | minLargeSize ≤ a ∧ OnBin a} := by
  rintro a ⟨hmin, ha⟩ b ⟨-, hb⟩ h
  dsimp only
  by_cases hla : a < maxLargeSize
  · have hda : cacheStep ∣ a := by rwa [OnBin, stepOf, if_pos hla] at ha
    rw [sizeToIdx, if_pos hla]
    by_cases hlb : b < maxLargeSize
    · have hdb : cacheStep ∣ b := by rwa [OnBin, stepOf, if_pos hlb] at hb
      rw [sizeToIdx, if_pos hlb]
      unfold cacheStep minLargeSize Bin.order at *
      dsimp only
      omega
    · obtain ⟨m, -, -, -, heq⟩ := sizeToIdx_huge (le_of_not_gt hlb) hb
      have hbins : numLargeBins = 1023 := rfl
      rw [heq]
      unfold cacheStep minLargeSize maxLargeSize Bin.order at *
      dsimp only
      omega
  · obtain ⟨m, hm8, hm, hma, heqa⟩ := sizeToIdx_huge (le_of_not_gt hla) ha
    obtain ⟨n, hn8, hn, hnb, heqb⟩ := sizeToIdx_huge (by omega) hb
    have hlog : log2 a ≤ log2 b := log2_le_log2 h.le
    have hge := log2_ge (le_of_not_gt hla)
    rw [heqa, heqb]
    unfold Bin.order
    dsimp only
    rcases hlog.lt_or_eq with hlt | heq
    · omega
    · have hmn : m < n := by
        rw [hma, hnb, heq] at h
        exact lt_of_mul_lt_mul_right h (Nat.zero_le _)
      omega

theorem order_maxHugeSize (P : Platform) :
    OnBin (maxHugeSize P) ∧ sizeToIdx (maxHugeSize P) = .huge (numHugeBins P) := by
  unfold numHugeBins maxHugeSize
  rcases P.bits_eq with h | h <;> rw [h]
  · exact ⟨by decide +kernel, by decide +kernel⟩
  · exact ⟨by decide +kernel, by decide +kernel⟩

/-- The index of a bin is in bounds unless the size is rounded up to the end of the range. -/
theorem inBounds_iff (hmin : minLargeSize ≤ a) (ha : OnBin a) :
    (sizeToIdx a).InBounds P ↔ a < maxHugeSize P := by
  obtain ⟨hon, heq⟩ := order_maxHugeSize P
  have hmax : maxLargeSize ≤ maxHugeSize P := by
    obtain ⟨k, hk, -, heq⟩ := maxHugeSize_eq P
    rw [heq]
    exact Nat.pow_le_pow_right (n := 2) (by decide) hk
  by_cases hla : a < maxLargeSize
  · rw [sizeToIdx, if_pos hla]
    unfold Bin.InBounds numLargeBins cacheStep minLargeSize maxLargeSize at *
    dsimp only
    omega
  · have hiff := order_strictMonoOn.le_iff_le ⟨le_trans (by decide) hmax, hon⟩ ⟨hmin, ha⟩
    obtain ⟨m, -, -, -, hidx⟩ := sizeToIdx_huge (le_of_not_gt hla) ha
    rw [heq, hidx] at hiff
    rw [hidx]
    unfold Bin.order at hiff
    unfold Bin.InBounds
    dsimp only at hiff ⊢
    omega

/-- The step of the last bins is a sixteenth of the range. -/
theorem exists_lastStep (P : Platform) :
    ∃ step, maxHugeSize P = 16 * step ∧ stepOf (15 * step) = step := by
  unfold maxHugeSize
  rcases P.bits_eq with h | h <;> rw [h]
  · exact ⟨2 ^ 27, by decide +kernel, by decide +kernel⟩
  · exact ⟨2 ^ 36, by decide +kernel, by decide +kernel⟩

theorem alignToBin_lt_iff (h : size < maxHugeSize P) :
    P.alignToBin size < maxHugeSize P ↔ 16 * size ≤ 15 * maxHugeSize P := by
  obtain ⟨step, hmax, hstep⟩ := exists_lastStep P
  constructor
  · intro hlt
    by_contra hlast
    have hle := le_alignToBin h.le
    -- the size is rounded up to a multiple of the last step
    have hdvd : step ∣ P.alignToBin size := by
      have hsteps := stepOf_dvd (show 15 * step ≤ size by omega)
      rw [hstep] at hsteps
      rw [alignToBin_eq]
      exact dvd_trans hsteps (dvd_alignUp _ _ _)
    obtain ⟨m, hm⟩ := hdvd
    have hlow : 15 < m := by
      by_contra hge
      have := Nat.mul_le_mul_left step (show m ≤ 15 by omega)
      omega
    have := Nat.mul_le_mul_left step (show 16 ≤ m by omega)
    omega
  · intro hfits
    have hle : size ≤ 15 * step := by omega
    have hdvd : stepOf size ∣ 15 * step := by
      have hsteps := stepOf_dvd hle
      rw [hstep] at hsteps
      exact dvd_mul_of_dvd_right hsteps 15
    have := alignToBin_le_of_dvd (P := P) hle hdvd
    omega

/-- Rounding up to the bins keeps the order of sizes, and the bins of rounded sizes come in
the order of these. All but the sizes above 15/16 of `maxHugeSize` have a bin, and these are
rounded up to `maxHugeSize`, whose index is the number of huge bins. -/
theorem sizeClasses {P : Platform} {s t : Nat} (hs : minLargeSize ≤ s ∧ s < maxHugeSize P)
    (ht : minLargeSize ≤ t ∧ t < maxHugeSize P) :
    s ≤ P.alignToBin s ∧ P.alignToBin (P.alignToBin s) = P.alignToBin s ∧
      (s ≤ t → P.alignToBin s ≤ P.alignToBin t ∧
        (sizeToIdx (P.alignToBin s)).order ≤ (sizeToIdx (P.alignToBin t)).order) ∧
      ((sizeToIdx (P.alignToBin s)).InBounds P ↔ P.alignToBin s < maxHugeSize P) ∧
      (P.alignToBin s < maxHugeSize P ↔ 16 * s ≤ 15 * maxHugeSize P) ∧
      (15 * maxHugeSize P < 16 * s → P.alignToBin s = maxHugeSize P ∧
        sizeToIdx (P.alignToBin s) = .huge (numHugeBins P)) ∧
      (sizeToIdx (P.alignToBin s) = sizeToIdx (P.alignToBin t) ↔
        P.alignToBin s = P.alignToBin t) ∧
      (sizeToIdx (P.alignToBin s) = sizeToIdx (P.alignToBin t) → s ≤ P.alignToBin t) := by
  have hles := le_alignToBin hs.2.le
  have hons := onBin_alignToBin hs.2
  have hins : minLargeSize ≤ P.alignToBin s ∧ OnBin _ := ⟨hs.1.trans hles, hons⟩
  have hint : minLargeSize ≤ P.alignToBin t ∧ OnBin _ :=
    ⟨ht.1.trans (le_alignToBin ht.2.le), onBin_alignToBin ht.2⟩
  have hinj : sizeToIdx (P.alignToBin s) = sizeToIdx (P.alignToBin t) →
      P.alignToBin s = P.alignToBin t := fun h =>
    order_strictMonoOn.injOn hins hint (congrArg Bin.order h)
  have hlast := alignToBin_lt_iff hs.2
  refine ⟨hles, ?_, fun h => ?_, inBounds_iff hins.1 hons, hlast, fun h => ?_,
    ⟨hinj, congrArg sizeToIdx⟩, fun h => hinj h ▸ hles⟩
  · exact le_antisymm (alignToBin_le_of_dvd le_rfl hons)
      (le_alignToBin (alignToBin_le_maxHugeSize hs.2))
  · have hle := alignToBin_mono h ht.2
    exact ⟨hle, (order_strictMonoOn.le_iff_le hins hint).mpr hle⟩
  · have heq : P.alignToBin s = maxHugeSize P :=
      le_antisymm (alignToBin_le_maxHugeSize hs.2) (le_of_not_gt (mt hlast.mp (by omega)))
    exact ⟨heq, heq ▸ (order_maxHugeSize P).2⟩

theorem sizeClasses_megabytes :
    linux64.alignToBin 20000000 ≤ linux64.alignToBin 1000000000 :=
  ((sizeClasses (P := linux64) (s := 20000000) (t := 1000000000) (by decide) (by decide)).2.2.1
    (by decide)).1

/-- The largest sizes of the range are rounded up to its end, for which there is no bin. -/
theorem last_sizes_have_no_bin :
    maxHugeSize linux64 - 1 < maxHugeSize linux64 ∧
      ¬ (sizeToIdx (linux64.alignToBin (maxHugeSize linux64 - 1))).InBounds linux64 := by
  have halign : linux64.alignToBin (maxHugeSize linux64 - 1) = maxHugeSize linux64 := by
    decide +kernel
  rw [halign, (order_maxHugeSize linux64).2]
  exact ⟨by decide, lt_irrefl _⟩

end OneTbb.Malloc.LargeObjectCache
