import OneTbb.Malloc.Sizes

/-!
# Reallocation of large objects

`reallocAligned` keeps a large object in place, remaps its region, or allocates,
copies and frees. What the caches, the slabs and the operating system answer is
a parameter, and is only assumed to be as specified.
-/

namespace OneTbb.Malloc

open OneTbb.Alignment Platform

variable (P : Platform) {β : Type*}

/-- What is read of a memory pool. -/
structure Pool where
  userPool : Bool
  hugePagesEnabled : Bool

def maxBinnedSmallPage : Nat := 1024 * 1024

def maxBinnedHugePage : Nat := 4 * 1024 * 1024

/-- `Backend::getMaxBinnedSize` -/
def Pool.getMaxBinnedSize (pool : Pool) : Nat :=
  if pool.hugePagesEnabled && !pool.userPool then maxBinnedHugePage else maxBinnedSmallPage

/-- A `MemRegion`, with whether its type is `MEMREG_ONE_BLOCK`. -/
structure MemRegion where
  start : Nat
  allocSz : Nat
  oneBlock : Bool

/-- Where `findBlockInRegion` and `remap` put the only block of a region. -/
def Platform.firstBlock (start : Nat) : Nat :=
  alignUp P.bits (start + P.sizeofMemRegion) P.cacheLine

/-- A live large object of a pool, with the region whose last block is its right neighbour. -/
structure LargeObject (pool : Pool) (β : Type*) where
  ptr : Nat
  lmb : Nat
  unalignedSize : Nat
  objectSize : Nat
  lastOf : Option MemRegion
  /-- the bytes from `ptr` on -/
  contents : Nat → β
  headers_le : lmb + P.headersSize ≤ ptr
  object_le : ptr + objectSize ≤ lmb + unalignedSize
  block_le : lmb + unalignedSize ≤ P.words
  cacheLine_dvd : P.cacheLine ∣ ptr
  region_dvd : pool.userPool = false → ∀ r ∈ lastOf, P.granularity ∣ r.start
  region_lmb : ∀ r ∈ lastOf, r.oneBlock → lmb = P.firstBlock r.start
  region_le : ∀ r ∈ lastOf, r.start + P.sizeofMemRegion ≤ lmb ∧
    lmb + unalignedSize + P.sizeofLastFreeBlock ≤ r.start + r.allocSz

/-- The answers of the caches, the slabs and the operating system. -/
structure Answers (β : Type*) where
  /-- whether there is thread-local data -/
  tls : Bool
  /-- `++tls->currCacheIdx` -/
  cacheIdx : Nat
  /-- address and `unalignedSize` of a block from the caches or the backend -/
  largeBlock : Nat → Option (Nat × Nat)
  /-- a slab, and the number of its object, counted from the end -/
  slabObject : Nat → Option (Nat × Nat)
  mremap : Nat → Option Nat
  /-- bytes nothing is known about -/
  garbage : Nat → β

/-- Blocks are as large as asked for and lie in the address space. -/
structure Answers.Specified (env : Answers β) : Prop where
  largeBlock : ∀ {n a size}, env.largeBlock n = some (a, size) → n ≤ size ∧ a + size ≤ P.words
  slabObject : ∀ {n slab k}, env.slabObject n = some (slab, k) →
    slabSize ∣ slab ∧ 0 < k ∧ k * n ≤ slabSize ∧ slab + slabSize ≤ P.words
  mremap : ∀ {n a}, env.mremap n = some a → P.granularity ∣ a ∧ a + n ≤ P.words

/-- A pointer and the memory block recorded for it. -/
structure Placement where
  ptr : Nat
  blockStart : Nat
  blockEnd : Nat

/-- What a reallocation returns. -/
inductive Outcome (pool : Pool) (β : Type*) where
  | null (old : LargeObject P pool β)
  | object (place : Placement) (contents : Nat → β)

/-- `MemoryPool::getFromLLOCache` -/
def getFromLLOCache (env : Answers β) (size alignment : Nat) : Option Placement :=
  let allocationSize := P.alignToBin ((size + P.headersSize + alignment) % P.words)
  if allocationSize < size then none
  else
    match env.largeBlock allocationSize with
    | none => none
    | some (lmb, unalignedSize) =>
      let alignedArea := alignUp P.bits (lmb + P.headersSize) alignment
      let alignedRight := alignDown (lmb + unalignedSize - size) alignment
      let ptrDelta := (alignedRight + P.words - alignedArea) % P.words
      let area :=
        if ptrDelta ≠ 0 ∧ env.tls then
          alignedArea + env.cacheIdx % (ptrDelta / alignment) * alignment
        else alignedArea
      some ⟨area, lmb, lmb + unalignedSize⟩

/-- `internalPoolMalloc`, for a pool that exists -/
def internalPoolMalloc (env : Answers β) (request : Nat) : Option Placement :=
  let size := P.orWord request
  if P.minLargeObjectSize ≤ size then getFromLLOCache P env size P.cacheLine
  else if !env.tls then none
  else
    match env.slabObject (P.getObjectSize size) with
    | none => none
    | some (slab, k) =>
      let object := slab + slabSize - k * P.getObjectSize size
      some ⟨object, object, object + P.getObjectSize size⟩

/-- `allocateAligned`, after the initialization of the library -/
def allocateAligned (env : Answers β) (size alignment : Nat) : Option Placement :=
  if size ≤ maxSegregatedObjectSize ∧ alignment ≤ maxSegregatedObjectSize then
    internalPoolMalloc P env (alignUp P.bits (P.orWord size) alignment)
  else if size < P.minLargeObjectSize ∧ alignment ≤ P.cacheLine then
    internalPoolMalloc P env size
  else if size < P.minLargeObjectSize ∧ (size + alignment) % P.words < P.minLargeObjectSize then
    match internalPoolMalloc P env ((size + alignment) % P.words) with
    | none => none
    | some unaligned => some { unaligned with ptr := alignUp P.bits unaligned.ptr alignment }
  else getFromLLOCache P env size (max P.cacheLine alignment)

variable {P} {pool : Pool}

/-- The guards of `Backend::remap` that come before the sizes are computed. -/
def LargeObject.Remappable (obj : LargeObject P pool β) (newSize alignment : Nat)
    (r : MemRegion) : Prop :=
  pool.userPool = false ∧ maxBinnedSmallPage ≤ min obj.objectSize newSize ∧
    alignment ∣ obj.ptr ∧ alignment ≤ P.granularity ∧ obj.lastOf = some r ∧ r.oneBlock = true

/-- The size of the region for a block, as `remap` computes it. -/
def Platform.requestSize (P : Platform) (alignedSize : Nat) : Nat :=
  alignUp P.bits (P.sizeofMemRegion + alignedSize + P.sizeofLastFreeBlock) P.granularity

/-- `Backend::remap`, with the contents the object has afterwards -/
def LargeObject.remap (obj : LargeObject P pool β) (env : Answers β)
    (newSize alignment : Nat) : Option (Placement × (Nat → β)) :=
  if pool.userPool ∨ min obj.objectSize newSize < maxBinnedSmallPage ∨ ¬ alignment ∣ obj.ptr ∨
      P.granularity < alignment then none
  else
    match obj.lastOf with
    | none => none
    | some oldRegion =>
      if oldRegion.oneBlock = false then none
      else
        let userOffset := obj.ptr - oldRegion.start
        let alignedSize := P.alignToBin ((newSize + userOffset) % P.words)
        let requestSize := P.requestSize alignedSize
        if requestSize < alignedSize then none
        else
          match env.mremap requestSize with
          | none => none
          | some region =>
            let fBlock := P.firstBlock region
            let object := region + userOffset
            let blockEnd := fBlock + alignedSize
            -- `mremap` keeps what both sizes have, then the mark of the last block is written
            some (⟨object, fBlock, blockEnd⟩, fun i =>
              if userOffset + i < min oldRegion.allocSz requestSize ∧
                  ¬ (blockEnd ≤ object + i ∧ object + i < blockEnd + P.sizeofLastFreeBlock)
              then obj.contents i else env.garbage i)

/-- The condition under which `reallocAligned` keeps the object in place. -/
def LargeObject.KeptInPlace (obj : LargeObject P pool β) (newSize alignment : Nat) :
    Prop :=
  let copySize := obj.unalignedSize - (obj.ptr - obj.lmb)
  let threshold := if pool.getMaxBinnedSize < copySize then copySize / 2 else 0
  newSize ≤ copySize ∧ (alignment = 0 ∨ alignment ∣ obj.ptr) ∧ threshold < newSize

instance (obj : LargeObject P pool β) (newSize alignment : Nat) :
    Decidable (obj.KeptInPlace newSize alignment) :=
  inferInstanceAs (Decidable (_ ∧ _ ∧ _))

/-- `reallocAligned` on a large object -/
def LargeObject.reallocAligned (obj : LargeObject P pool β) (env : Answers β)
    (newSize alignment : Nat) : Outcome P pool β :=
  if obj.KeptInPlace newSize alignment then
    .object ⟨obj.ptr, obj.lmb, obj.lmb + obj.unalignedSize⟩ obj.contents
  else
    match obj.remap env newSize (max P.cacheLine alignment) with
    | some (place, contents) => .object place contents
    | none =>
      let result := if alignment ≠ 0 then allocateAligned P env newSize alignment
        else internalPoolMalloc P env newSize
      match result with
      | none => .null obj
      | some place => .object place fun i =>
        if i < min obj.objectSize newSize then obj.contents i else env.garbage i

/-- Null with the old object untouched, or an object with the requested alignment, a block that
is large enough, and the old contents. -/
def Outcome.Right (obj : LargeObject P pool β) (newSize alignment : Nat) : Outcome P pool β → Prop
  | .null old => old = obj
  | .object place contents =>
    (alignment = 0 ∨ alignment ∣ place.ptr) ∧ place.blockStart ≤ place.ptr ∧
      place.ptr + newSize ≤ place.blockEnd ∧
      ∀ i < min obj.objectSize newSize, contents i = obj.contents i

/-! ## Allocation -/

theorem Platform.cacheLine_pow (P : Platform) : ∃ k ≤ 7, P.cacheLine = 2 ^ k := by
  rcases P.cacheLine_eq with h | h
  · exact ⟨6, by decide, h⟩
  · exact ⟨7, by decide, h⟩

/-- A power of two in a word is at most half of the range. -/
theorem pow_le_half {k : Nat} (h : 2 ^ k < P.words) : 2 * 2 ^ k ≤ P.words := by
  have hk : k < P.bits := (Nat.pow_lt_pow_iff_right (by decide)).mp h
  calc 2 * 2 ^ k = 2 ^ (k + 1) := by rw [pow_succ, mul_comm]
    _ ≤ P.words := Nat.pow_le_pow_right (by decide) hk

variable {obj : LargeObject P pool β} {place : Placement} {env : Answers β}
  {newSize alignment : Nat} {size k : Nat}

/-- The test for a wrap after `alignToBin` finds every wrap before it, too. -/
theorem allocationSize_ge (hsize : size < P.words) (hal : 2 ^ k < P.words)
    (h : ¬ P.alignToBin ((size + P.headersSize + 2 ^ k) % P.words) < size) :
    size + P.headersSize + 2 ^ k ≤ P.alignToBin ((size + P.headersSize + 2 ^ k) % P.words) := by
  have hhalf := pow_le_half hal
  have hwords := P.words_eq
  have hlarge := P.words_ge
  have hheaders : P.headersSize ≤ 1024 := P.headers_le
  rcases lt_or_ge (size + P.headersSize + 2 ^ k) P.words with hlt | hge
  · rw [Nat.mod_eq_of_lt hlt] at h ⊢
    rcases lt_or_ge P.words (size + P.headersSize + 2 ^ k + 2 ^ (P.bits - 4)) with hbig | hfit
    · -- a size that is rounded to zero is too large to be zero
      rw [alignToBin_of_lt hlt hbig] at h
      omega
    · exact (alignToBin_of_le hfit).1
  · -- a sum that wraps is rounded to less than the size
    have hmod : (size + P.headersSize + 2 ^ k) % P.words =
        size + P.headersSize + 2 ^ k - P.words := by
      rw [Nat.mod_eq_sub_mod hge, Nat.mod_eq_of_lt (by omega)]
    have hle := alignToBin_le (P := P) ((size + P.headersSize + 2 ^ k) % P.words)
    unfold cacheStep at hle
    omega

/-- Objects from the cache of large objects are aligned and fit their blocks. -/
theorem getFromLLOCache_spec (henv : env.Specified P)
    (hsize : size < P.words) (hal : 2 ^ k < P.words)
    (h : getFromLLOCache P env size (2 ^ k) = some place) :
    2 ^ k ∣ place.ptr ∧ place.blockStart ≤ place.ptr ∧ place.ptr + size ≤ place.blockEnd := by
  unfold getFromLLOCache at h
  simp only at h
  split at h
  case isTrue => cases h
  case isFalse hwrap =>
    have hge := allocationSize_ge hsize hal hwrap
    split at h
    case h_1 => cases h
    case h_2 lmb unalignedSize hblock =>
      obtain ⟨hlarge, hspace⟩ := henv.largeBlock hblock
      have hheader : 0 < P.headersSize := lt_of_lt_of_le P.header_pos (Nat.le_add_left _ _)
      have hpos : 0 < 2 ^ k := Nat.two_pow_pos k
      have hup : lmb + P.headersSize + (2 ^ k - 1) < 2 ^ P.bits := by
        change _ < P.words
        omega
      obtain ⟨hlow, hhigh⟩ := alignUp_of_lt hup hpos
      have hdvd := dvd_alignUp P.bits (lmb + P.headersSize) (2 ^ k)
      have hright := @le_alignDown (lmb + unalignedSize - size) (2 ^ k) _ (by omega) hdvd
      have hrightle := alignDown_le (lmb + unalignedSize - size) (2 ^ k)
      have hrdvd := dvd_alignDown (lmb + unalignedSize - size) (2 ^ k)
      generalize alignUp P.bits (lmb + P.headersSize) (2 ^ k) = area at *
      generalize alignDown (lmb + unalignedSize - size) (2 ^ k) = right at *
      have hdelta : (right + P.words - area) % P.words = right - area := by
        rw [show right + P.words - area = right - area + P.words by omega, Nat.add_mod_right]
        exact Nat.mod_eq_of_lt (by omega)
      rw [hdelta] at h
      injection h with h
      subst h
      split
      case isFalse => exact ⟨hdvd, by dsimp only; omega, by dsimp only; omega⟩
      case isTrue hmove =>
        obtain ⟨d, hd⟩ := Nat.dvd_sub hrdvd hdvd
        have hdpos : 0 < d := by
          rcases Nat.eq_zero_or_pos d with rfl | hd0
          · exact absurd hd hmove.1
          · exact hd0
        rw [hd, Nat.mul_div_cancel_left d hpos]
        have hoff : env.cacheIdx % d * 2 ^ k ≤ right - area := by
          rw [hd, mul_comm]
          exact Nat.mul_le_mul_left _ (Nat.mod_lt _ hdpos).le
        refine ⟨Nat.dvd_add hdvd (Nat.dvd_mul_left _ _), ?_, ?_⟩
        · dsimp only
          omega
        · dsimp only
          omega

/-- What the allocation functions promise for a size. -/
def Placement.Holds (place : Placement) (size : Nat) : Prop :=
  place.blockStart ≤ place.ptr ∧ place.ptr + size ≤ place.blockEnd

theorem Placement.Holds.mono {size size' : Nat} (h : place.Holds size)
    (hle : size' ≤ size) : place.Holds size' :=
  ⟨h.1, le_trans (Nat.add_le_add_left hle _) h.2⟩

theorem Platform.orWord_pos (P : Platform) (size : Nat) : 0 < P.orWord size := by
  have := P.bits_ge
  unfold orWord
  split <;> omega

theorem Platform.le_orWord (P : Platform) (size : Nat) : size ≤ P.orWord size := by
  unfold orWord
  split <;> omega

theorem Platform.minLargeObjectSize_le (P : Platform) :
    maxSegregatedObjectSize < P.minLargeObjectSize ∧ P.minLargeObjectSize ≤ slabSize := by
  unfold minLargeObjectSize
  rcases P.cacheLine_eq with h | h <;> rw [h] <;> decide

theorem Platform.cacheLine_lt_words (P : Platform) : P.cacheLine < P.words := by
  have := P.words_ge
  rcases P.cacheLine_eq with h | h <;> omega

theorem Platform.max_cacheLine_pow (P : Platform) (k : Nat) :
    ∃ j, max P.cacheLine (2 ^ k) = 2 ^ j ∧ k ≤ j := by
  obtain ⟨i, -, hi⟩ := P.cacheLine_pow
  rw [hi]
  rcases Nat.le_total i k with h | h
  · exact ⟨k, max_eq_right (Nat.pow_le_pow_right (by decide) h), Nat.le_refl k⟩
  · exact ⟨i, max_eq_left (Nat.pow_le_pow_right (by decide) h), h⟩

/-- A request for a small object is answered by an object of a slab. -/
theorem internalPoolMalloc_small (henv : env.Specified P)
    (hsmall : P.orWord size < P.minLargeObjectSize)
    (h : internalPoolMalloc P env size = some place) :
    place.Holds (P.orWord size) ∧ place.blockEnd ≤ P.words ∧
      ∀ al, al ∣ slabSize → al ∣ P.getObjectSize (P.orWord size) → al ∣ place.ptr := by
  have hobject := le_getObjectSize (P.orWord_pos size) hsmall
  unfold internalPoolMalloc at h
  simp only [if_neg (Nat.not_le_of_lt hsmall)] at h
  split at h
  case isTrue => cases h
  case isFalse =>
    split at h
    case h_1 => cases h
    case h_2 slab k hslab =>
      obtain ⟨hdvd, hk, hfit, hspace⟩ := henv.slabObject hslab
      have hone : P.getObjectSize (P.orWord size) ≤ k * P.getObjectSize (P.orWord size) :=
        Nat.le_mul_of_pos_left _ hk
      injection h with h
      subst h
      refine ⟨⟨le_rfl, Nat.add_le_add_left hobject _⟩, by dsimp only; omega, ?_⟩
      intro al hal hobj
      exact Nat.dvd_sub (Nat.dvd_add (hal.trans hdvd) hal) (Dvd.dvd.mul_left hobj k)

theorem internalPoolMalloc_large (henv : env.Specified P)
    (hsize : P.orWord size < P.words) (hlarge : P.minLargeObjectSize ≤ P.orWord size)
    (h : internalPoolMalloc P env size = some place) :
    place.Holds (P.orWord size) := by
  obtain ⟨k, -, hk⟩ := P.cacheLine_pow
  have hal := P.cacheLine_lt_words
  unfold internalPoolMalloc at h
  simp only [if_pos hlarge] at h
  rw [hk] at h hal
  exact (getFromLLOCache_spec henv hsize hal h).2

theorem Platform.orWord_lt_words (h : size < P.words) : P.orWord size < P.words := by
  have := P.words_ge
  unfold orWord
  split
  case isTrue => rcases P.bits_eq with h' | h' <;> omega
  case isFalse => exact h

theorem internalPoolMalloc_holds (henv : env.Specified P) (hsize : size < P.words)
    (h : internalPoolMalloc P env size = some place) : place.Holds size := by
  apply Placement.Holds.mono _ (P.le_orWord size)
  rcases lt_or_ge (P.orWord size) P.minLargeObjectSize with hsmall | hlarge
  · exact (internalPoolMalloc_small henv hsmall h).1
  · exact internalPoolMalloc_large henv (orWord_lt_words hsize) hlarge h

/-- Every power of two in a word is met by one of the four ways to allocate. -/
theorem allocateAligned_spec (henv : env.Specified P)
    (hsize : size < P.words) (hal : 2 ^ k < P.words)
    (h : allocateAligned P env size (2 ^ k) = some place) :
    2 ^ k ∣ place.ptr ∧ place.Holds size := by
  obtain ⟨hseg, hslab⟩ := P.minLargeObjectSize_le
  have hwords := P.words_ge
  have hhalf := pow_le_half hal
  unfold allocateAligned at h
  split at h
  case isTrue hboth =>
    -- the size is rounded up to the alignment, and so are the objects of its bin
    obtain ⟨hs, ha⟩ := hboth
    have hk : k ≤ 10 := (Nat.pow_le_pow_iff_right (by decide)).mp ha
    have hword : P.orWord size ≤ maxSegregatedObjectSize := by
      unfold orWord
      split
      case isTrue => rcases P.bits_eq with h' | h' <;> rw [h'] <;> decide
      case isFalse => exact hs
    have hup : P.orWord size + (2 ^ k - 1) < 2 ^ P.bits := by
      change _ < P.words
      unfold maxSegregatedObjectSize at ha hword
      omega
    have hge := (alignUp_of_lt hup (Nat.two_pow_pos k)).1
    have hle := @alignUp_le_of_dvd P.bits _ (2 ^ k) _ hword (Nat.pow_dvd_pow 2 hk)
      (Nat.two_pow_pos k)
    have hdvd := dvd_alignUp P.bits (P.orWord size) (2 ^ k)
    have hpos := P.orWord_pos size
    have hsame : P.orWord (alignUp P.bits (P.orWord size) (2 ^ k)) =
        alignUp P.bits (P.orWord size) (2 ^ k) := if_neg (by omega)
    obtain ⟨hholds, -, haligned⟩ := internalPoolMalloc_small henv (by omega) h
    rw [hsame] at hholds haligned
    refine ⟨?_, hholds.mono (le_trans (P.le_orWord size) hge)⟩
    apply haligned
    · exact (Nat.pow_dvd_pow 2 hk).trans (by decide)
    · exact dvd_getObjectSize (by omega) hdvd hle
  case isFalse hboth =>
    split at h
    case isTrue hfit =>
      -- not of the first kind, so the object is a multiple of a cache line
      obtain ⟨hs, ha⟩ := hfit
      have hbig : maxSegregatedObjectSize < size := by
        have : P.cacheLine ≤ maxSegregatedObjectSize := by
          rcases P.cacheLine_eq with h' | h' <;> rw [h'] <;> decide
        omega
      have hsame : P.orWord size = size := if_neg (by omega)
      obtain ⟨hholds, -, haligned⟩ := internalPoolMalloc_small henv (by omega) h
      obtain ⟨j, hj, hline⟩ := P.cacheLine_pow
      rw [hsame] at hholds haligned
      refine ⟨?_, hholds⟩
      rw [hline] at ha
      have hkj : k ≤ j := (Nat.pow_le_pow_iff_right (by decide)).mp ha
      apply haligned
      · exact (Nat.pow_dvd_pow 2 (le_trans hkj hj)).trans (by decide)
      · have := cacheLine_dvd_getObjectSize hbig hs
        rw [hline] at this
        exact (Nat.pow_dvd_pow 2 hkj).trans this
    case isFalse hfit =>
      split at h
      case isTrue hsum =>
        -- the object has room for the alignment of its address
        obtain ⟨hs, hsum⟩ := hsum
        unfold slabSize at hslab
        have hmod : (size + 2 ^ k) % P.words = size + 2 ^ k := Nat.mod_eq_of_lt (by omega)
        rw [hmod] at h hsum
        have hpos := Nat.two_pow_pos k
        have hsame : P.orWord (size + 2 ^ k) = size + 2 ^ k := if_neg (by omega)
        split at h
        case h_1 => cases h
        case h_2 unaligned hmalloc =>
          obtain ⟨hholds, hend, -⟩ := internalPoolMalloc_small henv (by omega) hmalloc
          rw [hsame] at hholds
          obtain ⟨hstart, hroom⟩ := hholds
          have hup : unaligned.ptr + (2 ^ k - 1) < 2 ^ P.bits := by
            change _ < P.words
            omega
          obtain ⟨hge, hle⟩ := alignUp_of_lt hup hpos
          injection h with h
          subst h
          exact ⟨dvd_alignUp _ _ _, le_trans hstart hge, by dsimp only; omega⟩
      case isFalse =>
        obtain ⟨j, hmax, hkj⟩ := P.max_cacheLine_pow k
        have hpow : 2 ^ j < P.words := by
          rw [← hmax]
          exact max_lt P.cacheLine_lt_words hal
        rw [hmax] at h
        obtain ⟨hdvd, hholds⟩ := getFromLLOCache_spec henv hsize hpow h
        exact ⟨(Nat.pow_dvd_pow 2 hkj).trans hdvd, hholds⟩

/-! ## Remapping -/

theorem Platform.granularity_bounds (P : Platform) :
    4096 ≤ P.granularity ∧ 4 * P.granularity ≤ 2 ^ (P.bits - 4) := by
  have hge := P.granularityExp_ge
  have hle := P.granularityExp_le
  constructor
  · calc 4096 = 2 ^ 12 := by decide
      _ ≤ P.granularity := Nat.pow_le_pow_right (by decide) hge
  · calc 4 * P.granularity = 2 ^ (P.granularityExp + 2) := by
          rw [granularity, Nat.pow_add, mul_comm]
      _ ≤ 2 ^ (P.bits - 4) := Nat.pow_le_pow_right (by decide) (by omega)

theorem Platform.cacheLine_dvd_granularity (P : Platform) : P.cacheLine ∣ P.granularity := by
  obtain ⟨k, hk, h⟩ := P.cacheLine_pow
  have := P.granularityExp_ge
  rw [h]
  exact Nat.pow_dvd_pow 2 (by omega)

/-- Rounding leaves a sixteenth of the range free. -/
theorem alignToBin_add_le (h : size < P.words) :
    P.alignToBin size + 2 ^ (P.bits - 4) ≤ P.words := by
  rcases lt_or_ge P.words (size + 2 ^ (P.bits - 4)) with hbig | hfit
  · rw [alignToBin_of_lt h hbig, zero_add]
    exact Nat.pow_le_pow_right (by decide) (by omega)
  · exact (alignToBin_of_le hfit).2

/-- So the size of the region never wraps, and the test for it never fails. -/
theorem requestSize_bounds {alignedSize : Nat} (h : alignedSize + 2 ^ (P.bits - 4) ≤ P.words) :
    P.sizeofMemRegion + alignedSize + P.sizeofLastFreeBlock ≤ P.requestSize alignedSize ∧
      P.granularity + P.requestSize alignedSize ≤ P.words := by
  obtain ⟨hlow, hhigh⟩ := P.granularity_bounds
  have hmarks := P.marks_le
  have hup : P.sizeofMemRegion + alignedSize + P.sizeofLastFreeBlock + (P.granularity - 1) <
      2 ^ P.bits := by
    change _ < P.words
    omega
  obtain ⟨hge, hle⟩ := alignUp_of_lt hup (by omega)
  unfold requestSize
  omega

theorem LargeObject.remap_some {contents : Nat → β}
    (h : obj.remap env newSize alignment = some (place, contents)) :
    ∃ r region alignedSize, obj.Remappable newSize alignment r ∧
      alignedSize = P.alignToBin ((newSize + (obj.ptr - r.start)) % P.words) ∧
      env.mremap (P.requestSize alignedSize) = some region ∧
      place = ⟨region + (obj.ptr - r.start), P.firstBlock region,
        P.firstBlock region + alignedSize⟩ ∧
      ∀ i, obj.ptr - r.start + i < min r.allocSz (P.requestSize alignedSize) →
        place.ptr + i < place.blockEnd → contents i = obj.contents i := by
  unfold LargeObject.remap at h
  split at h
  case isTrue => cases h
  case isFalse hguard =>
    simp only [not_or, not_lt, not_not, Bool.not_eq_true] at hguard
    obtain ⟨huser, hmin, hdvd, hgran⟩ := hguard
    split at h
    case h_1 => cases h
    case h_2 r hlast =>
      split at h
      case isTrue => cases h
      case isFalse hone =>
        simp only at h
        split at h
        case isTrue => cases h
        case isFalse =>
          split at h
          case h_1 => cases h
          case h_2 region hremap =>
            injection h with h
            injection h with hplace hcontents
            subst hplace hcontents
            refine ⟨r, region, _, ⟨huser, hmin, hdvd, hgran, hlast, by simpa using hone⟩, rfl,
              hremap, rfl, ?_⟩
            intro i hkept hbelow
            exact if_pos ⟨hkept, fun hmark => Nat.not_lt_of_le hmark.1 hbelow⟩

/-- A remapping whose sum stays in fifteen sixteenths of the range is right. -/
theorem LargeObject.remap_right (henv : env.Specified P) {newSize k : Nat} {contents : Nat → β}
    (hfit : ∀ r, obj.Remappable newSize (2 ^ k) r →
      newSize + (obj.ptr - r.start) + 2 ^ (P.bits - 4) ≤ P.words)
    (h : obj.remap env newSize (2 ^ k) = some (place, contents)) :
    2 ^ k ∣ place.ptr ∧ place.Holds newSize ∧
      ∀ i < min obj.objectSize newSize, contents i = obj.contents i := by
  obtain ⟨r, region, alignedSize, hremap, hsize, hanswer, hplace, hkept⟩ := obj.remap_some h
  have hsum := hfit r hremap
  obtain ⟨huser, hmin, hdvd, hgran, hlast, hone⟩ := hremap
  obtain ⟨hregion, hinside⟩ := obj.region_le r hlast
  have hlmb := obj.region_lmb r hlast hone
  have hheaders := obj.headers_le
  have hobject := obj.object_le
  have hstart : P.granularity ∣ r.start := obj.region_dvd huser r hlast
  obtain ⟨hgdvd, hspace⟩ := henv.mremap hanswer
  have hline := P.cacheLine_dvd_granularity
  have hmod : (newSize + (obj.ptr - r.start)) % P.words = newSize + (obj.ptr - r.start) :=
    Nat.mod_eq_of_lt (by have := Nat.two_pow_pos (P.bits - 4); omega)
  rw [hmod] at hsize
  obtain ⟨hge, hle⟩ := alignToBin_of_le hsum
  rw [← hsize] at hge hle
  obtain ⟨hroom, -⟩ := requestSize_bounds hle
  -- the block starts at the same offset as the old one, or before
  have hblock : P.firstBlock region ≤ region + (obj.lmb - r.start) := by
    apply alignUp_le_of_dvd
    · omega
    · apply Nat.dvd_add (hline.trans hgdvd)
      apply Nat.dvd_sub
      · rw [hlmb]
        exact dvd_alignUp _ _ _
      · exact hline.trans hstart
    · rcases P.cacheLine_eq with h' | h' <;> omega
  have hbefore : region ≤ P.firstBlock region := by
    have hbig : maxBinnedSmallPage ≤ newSize := le_trans hmin (min_le_right _ _)
    have hup : region + P.sizeofMemRegion + (P.cacheLine - 1) < 2 ^ P.bits := by
      change _ < P.words
      unfold maxBinnedSmallPage at hbig
      rcases P.cacheLine_eq with h' | h' <;> omega
    have hlow := (alignUp_of_lt hup (by rcases P.cacheLine_eq with h' | h' <;> omega)).1
    unfold firstBlock
    omega
  subst hplace
  refine ⟨?_, ⟨by dsimp only; omega, by dsimp only; omega⟩, ?_⟩
  · have hpow : 2 ^ k ∣ P.granularity :=
      Nat.pow_dvd_pow 2 ((Nat.pow_le_pow_iff_right (by decide)).mp hgran)
    exact Nat.dvd_add (hpow.trans hgdvd) (Nat.dvd_sub hdvd (hpow.trans hstart))
  · intro i hi
    apply hkept i
    · omega
    · dsimp only
      omega

/-- An operating system that remaps whenever there is room behind the first page. -/
def grantingAnswers (P : Platform) (garbage : Nat → β) : Answers β where
  tls := true
  cacheIdx := 0
  largeBlock _ := none
  slabObject _ := none
  mremap n := if P.granularity + n ≤ P.words then some P.granularity else none
  garbage := garbage

theorem grantingAnswers_specified (garbage : Nat → β) :
    (grantingAnswers P garbage).Specified P where
  largeBlock h := by cases h
  slabObject h := by cases h
  mremap := by
    intro n a h
    simp only [grantingAnswers] at h
    split at h
    case isTrue hroom =>
      injection h with h
      subst h
      exact ⟨dvd_rfl, hroom⟩
    case isFalse => cases h

theorem LargeObject.remap_of_remappable (env : Answers β) {r : MemRegion}
    (h : obj.Remappable newSize alignment r)
    (region alignedSize : Nat)
    (hsize : alignedSize = P.alignToBin ((newSize + (obj.ptr - r.start)) % P.words))
    (hanswer : env.mremap (P.requestSize alignedSize) = some region)
    (hle : alignedSize ≤ P.requestSize alignedSize) :
    ∃ contents, obj.remap env newSize alignment =
      some (⟨region + (obj.ptr - r.start), P.firstBlock region,
        P.firstBlock region + alignedSize⟩, contents) := by
  obtain ⟨huser, hmin, hdvd, hgran, hlast, hone⟩ := h
  subst hsize
  unfold LargeObject.remap
  rw [if_neg (by simp [huser, hdvd, Nat.not_lt_of_le hmin, Nat.not_lt_of_le hgran])]
  simp only [hlast, hone, Bool.true_eq_false, if_false, if_neg (Nat.not_lt_of_le hle), hanswer]
  exact ⟨_, rfl⟩

/-- A remapping whose sum is larger is granted with a block that is too small. -/
theorem LargeObject.remap_short {r : MemRegion} (h : obj.Remappable newSize alignment r)
    (hbig : P.words < newSize + (obj.ptr - r.start) + 2 ^ (P.bits - 4)) (garbage : Nat → β) :
    ∃ place contents, obj.remap (grantingAnswers P garbage) newSize alignment =
      some (place, contents) ∧ ¬ place.Holds newSize := by
  have hwords := P.words_eq
  have hlarge := P.words_ge
  have hmarks := P.marks_le
  obtain ⟨hlow, -⟩ := P.granularity_bounds
  have hmod := Nat.mod_lt (newSize + (obj.ptr - r.start)) (show 0 < P.words by omega)
  have hfree := alignToBin_add_le hmod
  obtain ⟨hroom, hspace⟩ := requestSize_bounds hfree
  have hpage : maxBinnedSmallPage ≤ newSize := le_trans h.2.1 (min_le_right _ _)
  obtain ⟨contents, hremap⟩ :=
    LargeObject.remap_of_remappable (grantingAnswers P garbage) h _ _ rfl (if_pos hspace) (by omega)
  refine ⟨_, contents, hremap, ?_⟩
  rintro ⟨-, hend⟩
  dsimp only at hend
  have hfirst : P.firstBlock P.granularity ≤ P.granularity + P.sizeofMemRegion + 127 := by
    have := alignUp_le P.bits (P.granularity + P.sizeofMemRegion) P.cacheLine
    unfold firstBlock
    rcases P.cacheLine_eq with h' | h' <;> omega
  rcases lt_or_ge (newSize + (obj.ptr - r.start)) P.words with hlt | hge
  · -- the bin size is rounded to zero
    rw [Nat.mod_eq_of_lt hlt, alignToBin_of_lt hlt hbig] at hend
    omega
  · -- the sum wraps
    omega

/-! ## Reallocation -/

/-- The region that `reallocAligned` tries to remap. -/
def LargeObject.RemapTried (obj : LargeObject P pool β) (newSize alignment : Nat)
    (r : MemRegion) : Prop :=
  ¬ obj.KeptInPlace newSize alignment ∧
    obj.Remappable newSize (max P.cacheLine alignment) r

theorem LargeObject.keptInPlace_right (h : obj.KeptInPlace newSize alignment) :
    (Outcome.object ⟨obj.ptr, obj.lmb, obj.lmb + obj.unalignedSize⟩ obj.contents :
      Outcome P pool β).Right obj newSize alignment := by
  obtain ⟨hsize, halign, -⟩ := h
  have hheaders := obj.headers_le
  have hobject := obj.object_le
  exact ⟨halign, by dsimp only; omega, by dsimp only; omega, fun i _ => rfl⟩

/-- Without the remapping, or with one that is right, so is the reallocation. -/
theorem LargeObject.reallocAligned_right
    (henv : env.Specified P) {newSize alignment k : Nat} (hnew : newSize < P.words)
    (hlt : alignment < P.words) (hal : alignment = 0 ∨ ∃ k, alignment = 2 ^ k)
    (hmax : max P.cacheLine alignment = 2 ^ k) (hdvd : alignment = 0 ∨ alignment ∣ 2 ^ k)
    (hfit : ∀ r, obj.RemapTried newSize alignment r →
      newSize + (obj.ptr - r.start) + 2 ^ (P.bits - 4) ≤ P.words) :
    (obj.reallocAligned env newSize alignment).Right obj newSize alignment := by
  unfold LargeObject.reallocAligned
  split
  case isTrue hkept => exact obj.keptInPlace_right hkept
  case isFalse hkept =>
    split
    case h_1 place contents hremap =>
      rw [hmax] at hremap
      obtain ⟨haligned, ⟨hstart, hend⟩, hcontents⟩ := obj.remap_right henv
        (fun r hr => hfit r ⟨hkept, by rwa [hmax]⟩) hremap
      exact ⟨hdvd.imp_right fun hd => hd.trans haligned, hstart, hend, hcontents⟩
    case h_2 =>
      simp only
      split
      case h_1 => rfl
      case h_2 place hplace =>
        have hright : (alignment = 0 ∨ alignment ∣ place.ptr) ∧ place.Holds newSize := by
          split at hplace
          case isTrue hne =>
            obtain ⟨j, rfl⟩ := hal.resolve_left hne
            obtain ⟨haligned, hholds⟩ := allocateAligned_spec henv hnew hlt hplace
            exact ⟨.inr haligned, hholds⟩
          case isFalse heq =>
            exact ⟨.inl (not_not.mp heq), internalPoolMalloc_holds henv hnew hplace⟩
        obtain ⟨haligned, hstart, hend⟩ := hright
        exact ⟨haligned, hstart, hend, fun i hi => if_pos hi⟩

/-- The layouts of the structures on a 64-bit Linux system. -/
def linux64 : Platform where
  bits := 64
  cacheLine := 64
  sizeofLargeMemoryBlock := 88
  sizeofLargeObjectHdr := 16
  sizeofMemRegion := 40
  sizeofLastFreeBlock := 64
  granularityExp := 12
  bits_eq := .inr rfl
  cacheLine_eq := .inl rfl
  header_pos := by decide
  headers_le := by decide
  marks_le := by decide
  granularityExp_ge := by decide
  granularityExp_le := by decide

/-- An object of two megabytes in the default pool, alone in its region. -/
def twoMegabytes : LargeObject linux64 ⟨false, false⟩ Nat where
  ptr := 2 ^ 30 + 192
  lmb := 2 ^ 30 + 64
  unalignedSize := 2105344
  objectSize := 2097152
  lastOf := some ⟨2 ^ 30, 2109440, true⟩
  contents i := i
  headers_le := by decide
  object_le := by decide
  block_le := by decide
  cacheLine_dvd := by decide
  region_dvd := by decide
  region_lmb := by decide
  region_le := by decide

/-- A reallocation is right, whatever the caches and the operating system answer, if and only if
a region that is to be remapped keeps the sum of the new size and the offset of the object
within fifteen sixteenths of the range of `size_t`. -/
theorem reallocAligned_right_iff (obj : LargeObject P pool β) (newSize alignment : Nat)
    (hnew : newSize < P.words) (hlt : alignment < P.words)
    (hal : alignment = 0 ∨ ∃ k, alignment = 2 ^ k) :
    (∀ env : Answers β, env.Specified P →
      (obj.reallocAligned env newSize alignment).Right obj newSize alignment) ↔
      ∀ r, obj.RemapTried newSize alignment r →
        newSize + (obj.ptr - r.start) + 2 ^ (P.bits - 4) ≤ P.words := by
  constructor
  case mp =>
    intro hright r hr
    by_contra hbig
    have hwrong := hright (grantingAnswers P obj.contents) (grantingAnswers_specified _)
    obtain ⟨hkept, hremap⟩ := hr
    obtain ⟨place, contents, hplace, hshort⟩ :=
      obj.remap_short hremap (by omega) obj.contents
    unfold LargeObject.reallocAligned at hwrong
    rw [if_neg hkept, hplace] at hwrong
    obtain ⟨-, hstart, hend, -⟩ := hwrong
    exact hshort ⟨hstart, hend⟩
  case mpr =>
    intro hfit env henv
    rcases hal with rfl | ⟨k, rfl⟩
    · obtain ⟨j, -, hline⟩ := P.cacheLine_pow
      exact obj.reallocAligned_right henv hnew hlt (.inl rfl)
        ((max_eq_left (Nat.zero_le _)).trans hline) (.inl rfl) hfit
    · obtain ⟨j, hmax, hkj⟩ := P.max_cacheLine_pow k
      exact obj.reallocAligned_right henv hnew hlt (.inr ⟨k, rfl⟩) hmax
        (.inr (Nat.pow_dvd_pow 2 hkj)) hfit

theorem reallocAligned_right_growing :
    (grantingAnswers linux64 id).Specified linux64 ∧
      (twoMegabytes.reallocAligned (grantingAnswers linux64 id) (3 * 2 ^ 20) 64).Right
        twoMegabytes (3 * 2 ^ 20) 64 := by
  refine ⟨grantingAnswers_specified id, ?_⟩
  refine (reallocAligned_right_iff twoMegabytes (3 * 2 ^ 20) 64 (by decide) (by decide)
    (.inr ⟨6, rfl⟩)).mpr ?_ _ (grantingAnswers_specified id)
  rintro r ⟨-, -, -, -, -, hlast, -⟩
  cases hlast
  decide

/-- The largest size is granted, with a block of 8192 bytes. -/
theorem reallocAligned_largest_short :
    (grantingAnswers linux64 id).Specified linux64 ∧
      ¬ (twoMegabytes.reallocAligned (grantingAnswers linux64 id) (2 ^ 64 - 1) 0).Right
        twoMegabytes (2 ^ 64 - 1) 0 := by
  refine ⟨grantingAnswers_specified id, ?_⟩
  have hkept : ¬ twoMegabytes.KeptInPlace (2 ^ 64 - 1) 0 := by decide +kernel
  have hremap : twoMegabytes.Remappable (2 ^ 64 - 1) 64 ⟨2 ^ 30, 2109440, true⟩ :=
    ⟨rfl, by decide +kernel, by decide +kernel, by decide +kernel, rfl, rfl⟩
  obtain ⟨contents, hplace⟩ := LargeObject.remap_of_remappable (grantingAnswers linux64 id)
    hremap 4096 8192 (by decide +kernel) (by decide +kernel)
    (by decide +kernel)
  unfold LargeObject.reallocAligned
  rw [if_neg hkept, show max linux64.cacheLine 0 = 64 from rfl, hplace]
  rintro ⟨-, -, hend, -⟩
  revert hend
  decide +kernel

end OneTbb.Malloc
