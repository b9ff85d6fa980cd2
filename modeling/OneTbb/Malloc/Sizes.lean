import OneTbb.Library.Alignment
import Mathlib.Tactic.IntervalCases

/-!
# Sizes of objects and blocks in `tbbmalloc`

Small objects are rounded up to the size of their bin, and are taken from slabs
from the end on. Large objects are rounded up to a size of the cache of large
objects, with a step that depends on the magnitude.
-/

namespace OneTbb.Malloc

open OneTbb.Alignment Nat

/-- What depends on the platform. -/
structure Platform where
  /-- the width of `size_t` -/
  bits : Nat
  /-- `estimatedCacheLineSize`, which is `largeObjectAlignment` and `fittingAlignment`, too -/
  cacheLine : Nat
  sizeofLargeMemoryBlock : Nat
  sizeofLargeObjectHdr : Nat
  sizeofMemRegion : Nat
  sizeofLastFreeBlock : Nat
  /-- the granularity of the raw memory is a power of two -/
  granularityExp : Nat
  bits_eq : bits = 32 ∨ bits = 64
  cacheLine_eq : cacheLine = 64 ∨ cacheLine = 128
  header_pos : 0 < sizeofLargeObjectHdr
  headers_le : sizeofLargeMemoryBlock + sizeofLargeObjectHdr ≤ 1024
  marks_le : sizeofMemRegion + sizeofLastFreeBlock ≤ 1024
  granularityExp_ge : 12 ≤ granularityExp
  granularityExp_le : granularityExp + 6 ≤ bits

variable (P : Platform)

theorem Platform.bits_ge : 32 ≤ P.bits := by
  rcases P.bits_eq with h | h <;> omega

/-- The number of values of `size_t`. -/
def Platform.words : Nat := 2 ^ P.bits

def Platform.granularity : Nat := 2 ^ P.granularityExp

/-- `headersSize` -/
def Platform.headersSize : Nat := P.sizeofLargeMemoryBlock + P.sizeofLargeObjectHdr

/-- Zero stands for `sizeof(size_t)`. -/
def Platform.orWord (size : Nat) : Nat := if size = 0 then P.bits / 8 else size

/-- `slabSize` -/
def slabSize : Nat := 16 * 1024

def maxSmallObjectSize : Nat := 64

def maxSegregatedObjectSize : Nat := 1024

/-- `SET_FITTING_SIZE`, with `sizeof(Block)` of two cache lines -/
def fittingSize (cacheLine count : Nat) : Nat :=
  alignDown ((slabSize - 2 * cacheLine) / count) cacheLine

/-- `minLargeObjectSize` -/
def Platform.minLargeObjectSize : Nat := fittingSize P.cacheLine 2 + 1

/-- `getSmallObjectIndex` -/
def getSmallObjectIndex (is64bit : Bool) (size : Nat) : Nat :=
  let result := (size - 1) >>> 3
  if is64bit && result ≠ 0 then result ||| 1 else result

/-- `getObjectSize` -/
def Platform.getObjectSize (size : Nat) : Nat :=
  if size ≤ maxSmallObjectSize then (getSmallObjectIndex (P.bits = 64) size + 1) <<< 3
  else if size ≤ maxSegregatedObjectSize then
    alignUp P.bits size (128 >>> (9 - log2 (size - 1)))
  else if size ≤ fittingSize P.cacheLine 4 then
    if size ≤ fittingSize P.cacheLine 6 then
      if size ≤ fittingSize P.cacheLine 9 then fittingSize P.cacheLine 9
      else fittingSize P.cacheLine 6
    else fittingSize P.cacheLine 4
  else if size ≤ fittingSize P.cacheLine 2 then
    if size ≤ fittingSize P.cacheLine 3 then fittingSize P.cacheLine 3
    else fittingSize P.cacheLine 2
  -- `~0U` after a failed assertion
  else 2 ^ 32 - 1

/-- `maxLargeSize` -/
def maxLargeSize : Nat := 8 * 1024 * 1024

/-- `CacheStep` -/
def cacheStep : Nat := 8 * 1024

/-- `LargeObjectCache::alignToBin` -/
def Platform.alignToBin (size : Nat) : Nat :=
  if size < maxLargeSize then alignUp P.bits size cacheStep
  else alignUp P.bits size (2 ^ (log2 size - 3))

/-! ## Large sizes -/

variable {P}

theorem Platform.words_ge (P : Platform) : 2 ^ 32 ≤ P.words :=
  Nat.pow_le_pow_right (by decide) P.bits_ge

/-- A sixteenth of the range of `size_t`, the step of the largest sizes. -/
theorem Platform.words_eq (P : Platform) : P.words = 16 * 2 ^ (P.bits - 4) := by
  have := P.bits_ge
  rw [Platform.words, show P.bits = P.bits - 4 + 4 by omega, Nat.pow_add]
  simp [mul_comm]

variable {size : Nat}

theorem step_bounds (hs : maxLargeSize ≤ size) :
    8 * 2 ^ (log2 size - 3) ≤ size ∧ size < 16 * 2 ^ (log2 size - 3) := by
  have hne : size ≠ 0 := by
    have : 0 < maxLargeSize := by decide
    omega
  have hlog : 23 ≤ log2 size := by
    rw [le_log2 hne]
    exact hs
  have h₁ := log2_self_le hne
  have h₂ := @Nat.lt_log2_self size
  have hsplit : 2 ^ log2 size = 8 * 2 ^ (log2 size - 3) := by
    rw [show log2 size = log2 size - 3 + 3 by omega, Nat.pow_add]
    simp [mul_comm]
  rw [pow_succ, hsplit] at h₂
  rw [hsplit] at h₁
  omega

theorem step_le (hs : maxLargeSize ≤ size) (hw : size < P.words) :
    log2 size - 3 ≤ P.bits - 4 := by
  have hne : size ≠ 0 := by
    have : 0 < maxLargeSize := by decide
    omega
  have : log2 size < P.bits := (log2_lt hne).mpr hw
  omega

/-- Sizes up to fifteen sixteenths of the range are rounded up. -/
theorem alignToBin_of_le (h : size + 2 ^ (P.bits - 4) ≤ P.words) :
    size ≤ P.alignToBin size ∧ P.alignToBin size + 2 ^ (P.bits - 4) ≤ P.words := by
  have hwords := P.words_eq
  have hlarge := P.words_ge
  unfold Platform.alignToBin
  split
  case isTrue hlt =>
    unfold maxLargeSize at hlt
    have hbound : size + (cacheStep - 1) < 2 ^ P.bits := by
      change _ < P.words
      unfold cacheStep
      omega
    obtain ⟨hge, hle⟩ := alignUp_of_lt hbound (by decide)
    unfold cacheStep at hge hle ⊢
    omega
  case isFalse hge =>
    have hexp := step_le (P := P) (Nat.le_of_not_lt hge) (by omega)
    have hstep : 2 ^ (log2 size - 3) ≤ 2 ^ (P.bits - 4) :=
      Nat.pow_le_pow_right (by decide) hexp
    have hdvd : 2 ^ (log2 size - 3) ∣ 15 * 2 ^ (P.bits - 4) :=
      Dvd.dvd.mul_left (Nat.pow_dvd_pow 2 hexp) 15
    have hbound : size + (2 ^ (log2 size - 3) - 1) < 2 ^ P.bits := by
      change _ < P.words
      omega
    have hle := @alignUp_le_of_dvd P.bits size _ _ (by omega) hdvd (Nat.two_pow_pos _)
    exact ⟨(alignUp_of_lt hbound (Nat.two_pow_pos _)).1, by omega⟩

theorem alignToBin_of_lt (hs : size < P.words)
    (h : P.words < size + 2 ^ (P.bits - 4)) : P.alignToBin size = 0 := by
  have hwords := P.words_eq
  have hlarge := P.words_ge
  have hhuge : maxLargeSize ≤ size := by
    unfold maxLargeSize
    omega
  have hexp := step_le hhuge hs
  have hbounds := step_bounds hhuge
  have hstep : 2 ^ (log2 size - 3) = 2 ^ (P.bits - 4) := by
    apply le_antisymm (Nat.pow_le_pow_right (by decide) hexp)
    -- a smaller step would keep the size below half of the range
    by_contra hlt
    have hexp' : log2 size - 3 + 1 ≤ P.bits - 4 := by
      rcases lt_or_eq_of_le hexp with hlt' | heq
      · exact hlt'
      · exact absurd (by rw [heq]) hlt
    have := Nat.pow_le_pow_right (show 0 < 2 by decide) hexp'
    rw [pow_succ] at this
    omega
  rw [Platform.alignToBin, if_neg (by omega), hstep]
  apply alignUp_of_le hs
  · change P.words ≤ _
    omega
  · exact Nat.pow_le_pow_right (by decide) (by omega)

theorem alignToBin_le (size : Nat) : P.alignToBin size ≤ size + size / 8 + cacheStep := by
  unfold Platform.alignToBin
  split
  case isTrue => exact le_trans (alignUp_le _ _ _) (by omega)
  case isFalse hge =>
    have hbounds := step_bounds (Nat.le_of_not_lt hge)
    have hle := alignUp_le P.bits size (2 ^ (log2 size - 3))
    omega

/-! ## Objects in slabs -/

/-- The sizes of the first bins, on both widths of a pointer. -/
theorem smallObject_spec : ∀ is64bit : Bool, ∀ size < maxSmallObjectSize + 1, 0 < size →
    size ≤ (getSmallObjectIndex is64bit size + 1) <<< 3 ∧
      ∀ k < 7, 2 ^ k ∣ size → 2 ^ k ∣ (getSmallObjectIndex is64bit size + 1) <<< 3 := by
  decide +kernel

/-- The alignment in a group of the segregated bins. -/
theorem segregatedAlignment_eq (hlow : maxSmallObjectSize < size)
    (hhigh : size ≤ maxSegregatedObjectSize) :
    ∃ j ≤ 7, 128 >>> (9 - log2 (size - 1)) = 2 ^ j := by
  unfold maxSmallObjectSize at hlow
  unfold maxSegregatedObjectSize at hhigh
  have hne : size - 1 ≠ 0 := by omega
  have hge : 6 ≤ log2 (size - 1) := (le_log2 hne).mpr (by omega)
  have hlt : log2 (size - 1) < 10 := (log2_lt hne).mpr (by omega)
  refine ⟨log2 (size - 1) - 2, by omega, ?_⟩
  interval_cases log2 (size - 1) <;> rfl

theorem le_getObjectSize (hpos : 0 < size) (h : size < P.minLargeObjectSize) :
    size ≤ P.getObjectSize size := by
  have hwords := P.words_ge
  unfold Platform.minLargeObjectSize at h
  unfold Platform.getObjectSize
  split
  case isTrue hsmall => exact (smallObject_spec _ size (by omega) hpos).1
  case isFalse hsmall =>
    split
    case isTrue hseg =>
      obtain ⟨j, hj, heq⟩ := segregatedAlignment_eq (by omega) hseg
      have hle : 2 ^ j ≤ 2 ^ 7 := Nat.pow_le_pow_right (by decide) hj
      unfold maxSegregatedObjectSize at hseg
      rw [heq]
      apply (alignUp_of_lt _ (Nat.two_pow_pos j)).1
      change _ < P.words
      omega
    case isFalse => split_ifs <;> omega

/-- An object as large as a multiple of a power of two is a multiple of it, too. -/
theorem dvd_getObjectSize {size k : Nat} (hpos : 0 < size) (hdvd : 2 ^ k ∣ size)
    (h : size ≤ maxSegregatedObjectSize) : 2 ^ k ∣ P.getObjectSize size := by
  have hwords := P.words_ge
  have hk : 2 ^ k ≤ size := le_of_dvd hpos hdvd
  unfold Platform.getObjectSize
  split
  case isTrue hsmall =>
    have hk7 : k < 7 := by
      by_contra hge
      have := Nat.pow_le_pow_right (show 0 < 2 by decide) (Nat.le_of_not_lt hge)
      unfold maxSmallObjectSize at hsmall
      omega
    exact (smallObject_spec _ size (by omega) hpos).2 k hk7 hdvd
  case isFalse hsmall =>
    obtain ⟨j, hj, heq⟩ := segregatedAlignment_eq (by omega) h
    rw [heq]
    rcases Nat.le_total k j with hkj | hjk
    · exact (Nat.pow_dvd_pow 2 hkj).trans (dvd_alignUp _ _ _)
    · -- the size is aligned already
      have hle : 2 ^ j ≤ 2 ^ 7 := Nat.pow_le_pow_right (by decide) hj
      have hj' : 2 ^ j ∣ size := (Nat.pow_dvd_pow 2 hjk).trans hdvd
      unfold maxSegregatedObjectSize at h
      have hbound : size + (2 ^ j - 1) < 2 ^ P.bits := by
        change _ < P.words
        omega
      have hge := (alignUp_of_lt hbound (Nat.two_pow_pos j)).1
      have hle' := @alignUp_le_of_dvd P.bits size _ _ (Nat.le_refl size) hj' (Nat.two_pow_pos j)
      rwa [le_antisymm hle' hge]

/-- The largest objects of slabs are multiples of a cache line. -/
theorem cacheLine_dvd_getObjectSize (hlow : maxSegregatedObjectSize < size)
    (h : size < P.minLargeObjectSize) : P.cacheLine ∣ P.getObjectSize size := by
  have hsmall : ¬ size ≤ maxSmallObjectSize := by
    unfold maxSegregatedObjectSize at hlow
    unfold maxSmallObjectSize
    omega
  unfold Platform.minLargeObjectSize at h
  rw [Platform.getObjectSize, if_neg hsmall, if_neg (by omega)]
  split_ifs
  all_goals first | exact dvd_alignDown _ _ | omega

end OneTbb.Malloc
