import OneTbb.Malloc.Realloc
import Mathlib.Algebra.BigOperators.Group.List.Basic
import Mathlib.Data.BitVec

/-!
# The used sizes of the large object cache

Each bin of the cache counts the bytes of its blocks that are in use. A lookup raises the
count whether it finds a block or not, and a block that is put back lowers it. Failures
and reallocations correct it, but with another check of the size than lookups have.
-/

namespace OneTbb.Malloc.LargeObjectCache

open Function List

def minLargeSize : Nat := 8 * 1024

def maxHugeSize (P : Platform) : Nat := if P.bits = 32 then 2147483648 else 1099511627776

def defaultMaxHugeSize : Nat := 64 * 1024 * 1024

/-- The bins of `largeCache` and of `hugeCache`. -/
inductive Bin where
  | large (idx : Nat)
  | huge (idx : Nat)
  deriving DecidableEq, Repr

/-- `sizeToIdx` of the cache that a size belongs to. -/
def sizeToIdx (size : Nat) : Bin :=
  if size < maxLargeSize then .large ((size - minLargeSize) / cacheStep)
  else
    let sizeExp := size.log2
    .huge ((sizeExp - maxLargeSize.log2) * 8 + (size - 2 ^ sizeExp) / 2 ^ (sizeExp - 3))

/-- The sizes of blocks are those of the bins. -/
structure BlockSize (P : Platform) where
  bytes : Nat
  large : minLargeSize ≤ bytes
  aligned : P.alignToBin bytes = bytes
  deriving DecidableEq

/-- The bins' `usedSize`, and the blocks handed out and not put back yet. -/
structure Cache (P : Platform) where
  usedSize : Bin → BitVec P.bits
  handedOut : List (BlockSize P)

/-- Whether the bin has a block, and whether a back reference and memory can be had. -/
structure Answers where
  cached : Bool
  backRef : Bool
  backend : Bool

inductive DecreaseOrIncrease where
  | decrease
  | increase

-- `hugeSizeThreshold` is `threshold`
variable {P : Platform} (threshold : Nat) (used : Bin → BitVec P.bits) (size : Nat)
  (op : DecreaseOrIncrease)

/-- `sizeInCacheRange` -/
def sizeInCacheRange (P : Platform) : Bool :=
  size < maxHugeSize P && (size ≤ defaultMaxHugeSize || threshold ≤ size)

/-- `updateUsedSize` of the bin for a size. -/
def updateUsedSize : Bin → BitVec P.bits :=
  update used (sizeToIdx size) <| match op with
    | .decrease => used (sizeToIdx size) - BitVec.ofNat P.bits size
    | .increase => used (sizeToIdx size) + BitVec.ofNat P.bits size

/-- `LargeObjectCache::updateCacheState` -/
def updateCacheState : Bin → BitVec P.bits :=
  if size < maxHugeSize P then updateUsedSize used size op else used

/-- `registerRealloc` -/
def registerRealloc (oldSize newSize : Nat) : Bin → BitVec P.bits :=
  updateCacheState (updateCacheState used oldSize .decrease) (P.alignToBin newSize) .increase

/-- What `LargeObjectCache::get` and `put` do to the used sizes. -/
def access : Bin → BitVec P.bits :=
  if sizeInCacheRange threshold size P then updateUsedSize used size op else used

/-- A lookup counts the size whether it finds a block or not. -/
def get : Bin → BitVec P.bits := access threshold used size .increase

def put : Bin → BitVec P.bits := access threshold used size .decrease

/-- `ExtMemoryPool::mallocLargeObject`, with whether it hands out a block -/
def Cache.mallocLargeObject (c : Cache P) (size : BlockSize P) (env : Answers) :
    Cache P × Bool :=
  let used := get threshold c.usedSize size.bytes
  if sizeInCacheRange threshold size.bytes P && env.cached then
    (⟨used, size :: c.handedOut⟩, true)
  else if env.backRef = false then ({ c with usedSize := used }, false)
  else if env.backend = false then
    ({ c with usedSize := updateCacheState used size.bytes .decrease }, false)
  else (⟨used, size :: c.handedOut⟩, true)

/-- What is done with large objects. A reallocation that moves the object is an allocation
and a release. -/
inductive Op (P : Platform) where
  | malloc (size : BlockSize P) (env : Answers)
  | free (size : BlockSize P)
  | reallocInPlace
  | remap (oldSize newSize : BlockSize P) (remapped : Bool)

/-- One operation; only blocks handed out are put back or remapped. -/
def Cache.step (c : Cache P) : Op P → Cache P
  | .malloc size env => (c.mallocLargeObject threshold size env).1
  | .free size =>
    if size ∈ c.handedOut then ⟨put threshold c.usedSize size.bytes, c.handedOut.erase size⟩
    else c
  | .reallocInPlace => c
  | .remap oldSize newSize remapped =>
    if oldSize ∈ c.handedOut ∧ remapped = true then
      ⟨registerRealloc c.usedSize oldSize.bytes newSize.bytes,
        newSize :: c.handedOut.erase oldSize⟩
    else c

/-- The cache after some operations. -/
def run (ops : List (Op P)) : Cache P := ops.foldl (Cache.step threshold) ⟨fun _ => 0, []⟩

/-- What a block of some size counts for in a bin. -/
def share (b : Bin) : BitVec P.bits :=
  if sizeInCacheRange threshold size P ∧ sizeToIdx size = b then BitVec.ofNat P.bits size
  else 0

/-- Each bin's used size is the sum of the sizes of its blocks that are handed out. -/
def Cache.Accounted (c : Cache P) : Prop :=
  ∀ b, c.usedSize b = (c.handedOut.map fun size => share threshold size.bytes b).sum

/-- Blocks of some sizes pass by the cache although it has bins for them. -/
def PassesBy (P : Platform) : Prop :=
  size < maxHugeSize P ∧ sizeInCacheRange threshold size P = false

instance : Decidable (PassesBy threshold size P) := inferInstanceAs (Decidable (_ ∧ _))

/-- No lookup that misses is followed by a failure to get a back reference, and sizes that
pass by the cache are neither refused by the backend nor remapped. -/
def Op.Careful : Op P → Prop
  | .malloc size env =>
    (sizeInCacheRange threshold size.bytes P = true → env.cached = true ∨ env.backRef = true) ∧
    (PassesBy threshold size.bytes P → env.backRef = true → env.backend = true)
  | .remap oldSize newSize remapped => remapped = true →
      ¬ PassesBy threshold oldSize.bytes P ∧ ¬ PassesBy threshold newSize.bytes P
  | _ => True

/-! ## Used sizes -/

variable {threshold used size} {b : Bin}

theorem get_apply : get threshold used size b = used b + share threshold size b := by
  unfold get access share updateUsedSize
  rcases eq_or_ne b (sizeToIdx size) with rfl | hb
  · cases sizeInCacheRange threshold size P <;> simp
  · cases sizeInCacheRange threshold size P <;> simp [hb, hb.symm]

theorem put_apply : put threshold used size b = used b - share threshold size b := by
  unfold put access share updateUsedSize
  rcases eq_or_ne b (sizeToIdx size) with rfl | hb
  · cases sizeInCacheRange threshold size P <;> simp
  · cases sizeInCacheRange threshold size P <;> simp [hb, hb.symm]

/-- Sizes that do not pass by the cache are checked for in the same way everywhere. -/
theorem updateCacheState_eq (h : ¬ PassesBy threshold size P) :
    updateCacheState used size op = access threshold used size op := by
  unfold updateCacheState access
  cases hrange : sizeInCacheRange threshold size P with
  | false => exact if_neg fun hlt => h ⟨hlt, hrange⟩
  | true =>
    simp only [sizeInCacheRange, Bool.and_eq_true, decide_eq_true_eq] at hrange
    exact if_pos hrange.1

/-! ## Runs -/

variable {c : Cache P}

/-- A careful allocation hands out a block that it counts, or changes nothing. -/
theorem mallocLargeObject_cases {size : BlockSize P} {env : Answers}
    (h : (Op.malloc size env).Careful threshold) :
    c.mallocLargeObject threshold size env =
        (⟨get threshold c.usedSize size.bytes, size :: c.handedOut⟩, true) ∨
      c.mallocLargeObject threshold size env = (c, false) := by
  unfold Cache.mallocLargeObject
  dsimp only
  split_ifs with hfound hbackRef hbackend
  · exact .inl rfl
  · right
    cases hrange : sizeInCacheRange threshold size.bytes P with
    | false => simp [get, access, hrange]
    | true =>
      have := h.1 hrange
      simp_all
  · right
    have hpasses : ¬ PassesBy threshold size.bytes P := by
      intro hpasses
      have := h.2 hpasses
      simp_all
    have hback : put threshold (get threshold c.usedSize size.bytes) size.bytes = c.usedSize := by
      funext b
      rw [put_apply, get_apply, add_sub_cancel_right]
    rw [updateCacheState_eq _ hpasses]
    exact congrArg (fun used => ({ c with usedSize := used }, false)) hback
  · exact .inl rfl

theorem Cache.Accounted.handOut (hc : c.Accounted threshold) (size : BlockSize P) :
    Accounted threshold ⟨get threshold c.usedSize size.bytes, size :: c.handedOut⟩ := by
  intro b
  dsimp only
  rw [get_apply, hc b, map_cons, sum_cons, add_comm]

theorem Cache.Accounted.putBack (hc : c.Accounted threshold) {size : BlockSize P}
    (hmem : size ∈ c.handedOut) :
    Accounted threshold ⟨put threshold c.usedSize size.bytes, c.handedOut.erase size⟩ := by
  intro b
  dsimp only
  rw [put_apply, hc b, ← sum_map_erase _ hmem, add_sub_cancel_left]

theorem Cache.Accounted.step (hc : c.Accounted threshold) {op : Op P}
    (hop : op.Careful threshold) : (c.step threshold op).Accounted threshold := by
  cases op with
  | malloc size env =>
    unfold Cache.step
    dsimp only
    obtain heq | heq := mallocLargeObject_cases (c := c) hop
    · rw [heq]
      exact hc.handOut size
    · rw [heq]
      exact hc
  | free size =>
    unfold Cache.step
    dsimp only
    split
    · exact hc.putBack (by assumption)
    · exact hc
  | reallocInPlace => exact hc
  | remap oldSize newSize remapped =>
    unfold Cache.step
    dsimp only
    split
    · rename_i hremap
      obtain ⟨hold, hnew⟩ := hop hremap.2
      rw [registerRealloc, newSize.aligned, updateCacheState_eq _ hnew,
        updateCacheState_eq _ hold]
      exact (hc.putBack hremap.1).handOut newSize
    · exact hc

/-- In every run of careful operations each used size is the sum of the sizes of the blocks
handed out, and an allocation that fails leaves the used sizes as they were. -/
theorem usedSizes_accounted (threshold : Nat) (ops : List (Op P))
    (hops : ∀ op ∈ ops, op.Careful threshold) :
    (run threshold ops).Accounted threshold ∧
      ∀ size env c, (Op.malloc size env).Careful threshold →
        (run threshold ops).mallocLargeObject threshold size env = (c, false) →
        c.usedSize = (run threshold ops).usedSize := by
  constructor
  · have hinit : (⟨fun _ => 0, []⟩ : Cache P).Accounted threshold := fun _ => rfl
    exact foldlRecOn ops _ hinit fun c hc op hop => hc.step (hops op hop)
  · intro size env c hcareful hfailed
    obtain heq | heq := mallocLargeObject_cases (c := run threshold ops) hcareful
    · cases heq.symm.trans hfailed
    · rw [(Prod.mk.inj (heq.symm.trans hfailed)).1]

def sixteenKilobytes : BlockSize linux64 := ⟨16384, by decide, by decide⟩

theorem usedSizes_accounted_refused :
    (run (maxHugeSize linux64) [.malloc sixteenKilobytes ⟨false, true, true⟩,
      .malloc sixteenKilobytes ⟨false, true, false⟩, .free sixteenKilobytes]).Accounted
      (maxHugeSize linux64) :=
  (usedSizes_accounted _ _ (by simp [Op.Careful]; decide)).1

def eightyMegabytes : BlockSize linux64 := ⟨83886080, by decide, by decide⟩

/-- Without a back reference the size of the block stays counted, and a size that passes by
the cache is taken off although it was never counted. -/
theorem failedAllocations_change_usedSize :
    ¬ (run (maxHugeSize linux64) [.malloc sixteenKilobytes ⟨false, false, true⟩]).Accounted
        (maxHugeSize linux64) ∧
      ¬ (run (maxHugeSize linux64) [.malloc eightyMegabytes ⟨false, true, false⟩]).Accounted
        (maxHugeSize linux64) := by
  constructor
  · intro h
    exact absurd (h (.large 1)) (by decide)
  · intro h
    exact absurd (h (sizeToIdx eightyMegabytes.bytes)) (by decide)

end OneTbb.Malloc.LargeObjectCache
