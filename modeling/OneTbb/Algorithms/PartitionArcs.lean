import OneTbb.Algorithms.Range
import OneTbb.Library.Alignment
import OneTbb.Library.Arc
import OneTbb.Library.SplitTree

/-!
# The slots of the static and the affinity partitioner

A task of these partitioners owns an arc of a ring of slots: `my_divisor` of them from `my_head`
on. A proportional split leaves the first part of the arc to the task and gives the rest to the
new one. `size_t` has 64 bits.
-/

namespace OneTbb.Algorithms

open List Nat

open Arc

/-- The partitioners with `linear_affinity_mode`. -/
inductive LinearKind where
  | static
  | affinity
  deriving DecidableEq, Repr

/-- `factor`, a power of two -/
def LinearKind.factor : LinearKind → Nat
  | .static => 1
  | .affinity => 16

theorem LinearKind.factor_pos (kind : LinearKind) : 0 < kind.factor := by
  cases kind <;> decide

/-- `linear_affinity_mode` with what it inherits from `adaptive_mode` -/
structure LinearAffinity where
  divisor : Nat
  head : Nat
  maxAffinity : Nat
  deriving DecidableEq, Repr

namespace LinearAffinity

/-- `get_initial_auto_partitioner_divisor` -/
def initialDivisor (concurrency : Nat) : Nat := 4 * concurrency % 2 ^ 64

/-- The constructor of the root, where the thread has the index `index` in its arena. -/
def initial (kind : LinearKind) (concurrency index : Nat) : LinearAffinity :=
  let divisor := initialDivisor concurrency / 4 * kind.factor % 2 ^ 64
  ⟨divisor, index, divisor⟩

/-- `is_divisible` of `proportional_mode` -/
def isDivisible (kind : LinearKind) (p : LinearAffinity) : Bool := decide (kind.factor < p.divisor)

/-- The two parts of `get_split` -/
def splitParts (kind : LinearKind) (p : LinearAffinity) : Nat × Nat :=
  let n := p.divisor / kind.factor
  let right := n / 2
  (n - right, right)

/-- `get_split` -/
def getSplit (kind : LinearKind) (p : LinearAffinity) : SplitObj :=
  .proportionalSplit (p.splitParts kind).1 (p.splitParts kind).2

/-- The portion that `do_split` of `proportional_mode` takes: a multiple of the factor near to it -/
def portion (kind : LinearKind) (right : Nat) : Nat :=
  (right * kind.factor % 2 ^ 64 + kind.factor / 2) % 2 ^ 64 &&& (2 ^ 64 - kind.factor)

/-- The constructor with a `proportional_split`: the object after it, and the new one. The base is
constructed first, so the new head is computed from the reduced divisor. -/
def split (kind : LinearKind) (p : LinearAffinity) : LinearAffinity × LinearAffinity :=
  let portion := portion kind (p.splitParts kind).2
  let src := { p with divisor := (p.divisor + 2 ^ 64 - portion) % 2 ^ 64 }
  (src, ⟨portion, (src.head + src.divisor) % 2 ^ 64 % src.maxAffinity, src.maxAffinity⟩)

/-- The slots the task owns -/
def slots (p : LinearAffinity) : List Nat := arc p.maxAffinity p.head p.divisor

/-- The slot `spawn_task` of `linear_affinity_mode` passes on, a `slot_id` of 16 bits -/
def slotId (p : LinearAffinity) : Nat := p.head % 2 ^ 16

end LinearAffinity

namespace LinearAffinity

variable {kind : LinearKind} {concurrency index : Nat} {p : LinearAffinity}

/-- What holds of every task of a tree: its divisor counts slots in whole factors. -/
structure Sound (kind : LinearKind) (concurrency : Nat) (p : LinearAffinity) : Prop where
  divisor_pos : 0 < p.divisor
  factor_dvd : kind.factor ∣ p.divisor
  divisor_le : p.divisor ≤ p.maxAffinity
  maxAffinity_eq : p.maxAffinity = concurrency * kind.factor
  head_lt : p.head < 2 ^ 16 ∨ p.head < p.maxAffinity

/-- Rounding a multiple of the factor changes nothing. -/
theorem portion_eq {right : Nat} (h : right * kind.factor < 2 ^ 63) :
    portion kind right = right * kind.factor := by
  have hfactor : kind.factor = 2 ^ (if kind = .static then 0 else 4) := by
    cases kind <;> rfl
  have hle : kind.factor ≤ 16 := by
    cases kind <;> decide
  have hpos := kind.factor_pos
  rw [portion, mod_eq_of_lt (show right * kind.factor < 2 ^ 64 by omega),
    mod_eq_of_lt (show right * kind.factor + kind.factor / 2 < 2 ^ 64 by omega)]
  nth_rewrite 3 [hfactor]
  rw [Alignment.and_mask (by omega) (by split <;> decide), ← hfactor, Alignment.alignDown,
    mul_comm right, mul_add_div hpos, div_eq_of_lt (by omega), add_zero,
    mul_comm]

theorem sound_initial (kind : LinearKind) (hpos : 0 < concurrency) (hlt : concurrency < 2 ^ 31)
    (hindex : index < 2 ^ 16) : (initial kind concurrency index).Sound kind concurrency := by
  have hle : kind.factor ≤ 16 := by
    cases kind <;> decide
  have hmul : concurrency * kind.factor ≤ concurrency * 16 := mul_le_mul_left _ hle
  have hdivisor : initialDivisor concurrency / 4 * kind.factor % 2 ^ 64 =
      concurrency * kind.factor := by
    rw [initialDivisor, mod_eq_of_lt (show 4 * concurrency < 2 ^ 64 by omega),
      Nat.mul_div_cancel_left _ (by decide), mod_eq_of_lt (by omega)]
  constructor
  case divisor_pos =>
    rw [initial, hdivisor]
    exact mul_pos hpos kind.factor_pos
  case factor_dvd =>
    rw [initial, hdivisor]
    exact Nat.dvd_mul_left _ _
  case divisor_le => exact le_rfl
  case maxAffinity_eq => exact hdivisor
  case head_lt => exact .inl hindex

section

variable (h : p.Sound kind concurrency)
  (hlt : concurrency < 2 ^ 31) (hdiv : p.isDivisible kind = true)
include h hlt hdiv

/-- What a split does to a task that `is_divisible`: it takes a whole number of factors, without
wrapping, and leaves at least one. -/
theorem Sound.split_eq :
    ∃ left right, 0 < left ∧ 0 < right ∧ p.divisor = (left + right) * kind.factor ∧
      portion kind (p.splitParts kind).2 = right * kind.factor ∧
      p.split kind = ({ p with divisor := left * kind.factor },
        ⟨right * kind.factor, (p.head + left * kind.factor) % p.maxAffinity, p.maxAffinity⟩) := by
  obtain ⟨n, hn⟩ := h.factor_dvd
  rw [mul_comm] at hn
  have hle : kind.factor ≤ 16 := by
    cases kind <;> decide
  have hpos := kind.factor_pos
  have htwo : 1 < n := by
    rw [isDivisible, decide_eq_true_iff, hn] at hdiv
    exact (Nat.lt_mul_iff_one_lt_left hpos).mp hdiv
  have hmax : p.maxAffinity < 2 ^ 36 := by
    have := mul_le_mul_left concurrency hle
    rw [h.maxAffinity_eq]
    omega
  have hsum : (n - n / 2 + n / 2) * kind.factor = p.divisor := by
    rw [hn, Nat.sub_add_cancel (div_le_self n 2)]
  have hparts : p.splitParts kind = (n - n / 2, n / 2) := by
    rw [splitParts, hn, Nat.mul_div_cancel _ hpos]
  rw [add_mul] at hsum
  have hdivisor := h.divisor_le
  have hhead := h.head_lt
  have hportion : portion kind (n / 2) = n / 2 * kind.factor := portion_eq (by omega)
  refine ⟨n - n / 2, n / 2, by omega, by omega, ?_, ?_, ?_⟩
  · rw [add_mul, hsum]
  · rw [hparts, hportion]
  · have hsrc : (p.divisor + 2 ^ 64 - n / 2 * kind.factor) % 2 ^ 64 =
        (n - n / 2) * kind.factor := by
      omega
    have hnew : (p.head + (n - n / 2) * kind.factor) % 2 ^ 64 =
        p.head + (n - n / 2) * kind.factor := mod_eq_of_lt (by omega)
    simp only [split, hparts, hportion, hsrc, hnew]

theorem Sound.split :
    (p.split kind).1.Sound kind concurrency ∧ (p.split kind).2.Sound kind concurrency := by
  obtain ⟨left, right, hleft, hright, hsum, -, hsplit⟩ := h.split_eq hlt hdiv
  have hpos := kind.factor_pos
  have hdivisor := h.divisor_le
  rw [hsum, add_mul] at hdivisor
  rw [hsplit]
  constructor
  · exact ⟨mul_pos hleft hpos, Nat.dvd_mul_left _ _, le_of_add_right_le hdivisor,
      h.maxAffinity_eq, h.head_lt⟩
  · have hmax : 0 < p.maxAffinity := lt_of_lt_of_le h.divisor_pos h.divisor_le
    exact ⟨mul_pos hright hpos, Nat.dvd_mul_left _ _, le_of_add_left_le hdivisor,
      h.maxAffinity_eq, .inr (mod_lt _ hmax)⟩

theorem Sound.divisor_split_lt :
    (p.split kind).1.divisor < p.divisor ∧ (p.split kind).2.divisor < p.divisor := by
  obtain ⟨left, right, hleft, hright, hsum, -, hsplit⟩ := h.split_eq hlt hdiv
  rw [hsplit, hsum, add_mul]
  have hpos := kind.factor_pos
  exact ⟨Nat.lt_add_of_pos_right (mul_pos hright hpos),
    Nat.lt_add_of_pos_left (mul_pos hleft hpos)⟩

end

theorem split_divisor_congr {q : LinearAffinity} (kind : LinearKind) (h : p.divisor = q.divisor) :
    (p.split kind).1.divisor = (q.split kind).1.divisor ∧
      (p.split kind).2.divisor = (q.split kind).2.divisor := by
  simp only [split, splitParts, h, and_self]

theorem Sound.slots_split (h : p.Sound kind concurrency) (hlt : concurrency < 2 ^ 31)
    (hdiv : p.isDivisible kind = true) :
    p.slots = (p.split kind).1.slots ++ (p.split kind).2.slots := by
  obtain ⟨left, right, -, -, hsum, -, hsplit⟩ := h.split_eq hlt hdiv
  rw [hsplit, slots, hsum, add_mul, arc_add]
  rfl

end LinearAffinity

namespace LinearAffinity

variable {kind : LinearKind} {concurrency : Nat} {tree : SplitTree} {p : LinearAffinity}

theorem flatMap_slots_leaves (h : p.Sound kind concurrency) (hlt : concurrency < 2 ^ 31)
    (hvalid : tree.Valid (isDivisible kind) (split kind) p) :
    (tree.leaves (split kind) p).flatMap slots = p.slots :=
  SplitTree.flatMap_leaves (fun _ hp => hp.split hlt) (fun _ hp => hp.slots_split hlt) h hvalid

theorem sound_of_mem_leaves {q : LinearAffinity} (h : p.Sound kind concurrency)
    (hlt : concurrency < 2 ^ 31) (hvalid : tree.Valid (isDivisible kind) (split kind) p)
    (hmem : q ∈ tree.leaves (split kind) p) : q.Sound kind concurrency :=
  SplitTree.inv_of_mem_leaves (fun _ hp => hp.split hlt) h hvalid hmem

section Root

variable {index : Nat} (hpos : 0 < concurrency) (hlt : concurrency < 2 ^ 31)
  (hindex : index < 2 ^ 16)

include hpos hlt hindex

section

variable (hvalid : tree.Valid (isDivisible kind) (split kind) (initial kind concurrency index))
include hvalid

theorem slots_leaves_perm :
    ((tree.leaves (split kind) (initial kind concurrency index)).flatMap slots).Perm
      (range (concurrency * kind.factor)) := by
  have h := sound_initial kind hpos hlt hindex
  rw [flatMap_slots_leaves h hlt hvalid, ← h.maxAffinity_eq]
  exact arc_perm_range (lt_of_lt_of_le h.divisor_pos h.divisor_le) _

theorem leaves_pairwise_disjoint :
    (tree.leaves (split kind) (initial kind concurrency index)).Pairwise
      fun p q => List.Disjoint p.slots q.slots := by
  have hnodup := (slots_leaves_perm hpos hlt hindex hvalid).nodup_iff.mpr nodup_range
  exact (nodup_flatMap.mp hnodup).2

/-- Sixteen bits are enough for the slots of a small arena. -/
theorem nodup_slotId (hsmall : concurrency * kind.factor ≤ 2 ^ 16) :
    ((tree.leaves (split kind) (initial kind concurrency index)).map slotId).Nodup := by
  have h := sound_initial kind hpos hlt hindex
  rw [Nodup, pairwise_map]
  apply (leaves_pairwise_disjoint hpos hlt hindex hvalid).imp_of_mem
  intro p q hp hq hdisjoint heq
  have hsoundp := sound_of_mem_leaves h hlt hvalid hp
  have hsoundq := sound_of_mem_leaves h hlt hvalid hq
  have hhead : ∀ {r : LinearAffinity}, r.Sound kind concurrency → r.slotId = r.head := by
    intro r hr
    have hmax := hr.maxAffinity_eq
    have hlow := hr.head_lt
    exact mod_eq_of_lt (by omega)
  rw [hhead hsoundp, hhead hsoundq] at heq
  have hfirst : ∀ {r : LinearAffinity}, r.Sound kind concurrency →
      r.head % r.maxAffinity ∈ r.slots := by
    intro r hr
    exact mem_map.mpr ⟨0, mem_range.mpr hr.divisor_pos, rfl⟩
  apply hdisjoint (hfirst hsoundp)
  rw [heq, hsoundp.maxAffinity_eq, ← hsoundq.maxAffinity_eq]
  exact hfirst hsoundq

end

/-- A slot identifier has too few bits for a large arena: two leaves of a tree that is split to the
end get the same one. -/
theorem exists_not_nodup_slotId (kind : LinearKind) (hfactor : kind.factor = 1)
    (hlarge : 2 ^ 16 < concurrency) :
    ∃ tree : SplitTree,
      tree.Valid (isDivisible kind) (split kind) (initial kind concurrency index) ∧
      ¬ ((tree.leaves (split kind) (initial kind concurrency index)).map slotId).Nodup := by
  have h := sound_initial kind hpos hlt hindex
  obtain ⟨tree, hvalid, hfull⟩ :=
    SplitTree.exists_full (fun _ hp => hp.split hlt) (fun _ hp => hp.divisor_split_lt hlt) h
  refine ⟨tree, hvalid, ?_⟩
  intro hnodup
  -- each place of the ring is the head of some leaf
  have hhead : ∀ x < concurrency,
      ∃ q ∈ tree.leaves (split kind) (initial kind concurrency index), q.head = x := by
    intro x hx
    have hmem := (slots_leaves_perm hpos hlt hindex hvalid).mem_iff.mpr
      (mem_range.mpr (show x < concurrency * kind.factor by rwa [hfactor, mul_one]))
    obtain ⟨q, hq, hslot⟩ := mem_flatMap.mp hmem
    have hsound := sound_of_mem_leaves h hlt hvalid hq
    have hone := hfull q hq
    rw [isDivisible, decide_eq_false_iff_not, hfactor] at hone
    have hmax := hsound.maxAffinity_eq
    have hpos := hsound.divisor_pos
    have hlow := hsound.head_lt
    rw [hfactor, mul_one] at hmax
    obtain ⟨i, hi, heq⟩ := mem_map.mp hslot
    rw [mem_range] at hi
    refine ⟨q, hq, ?_⟩
    rw [← heq, show i = 0 by omega, add_zero, mod_eq_of_lt (by omega)]
  obtain ⟨p, hp, hpzero⟩ := hhead 0 hpos
  obtain ⟨q, hq, hqlarge⟩ := hhead (2 ^ 16) hlarge
  have hslot : p.slotId = q.slotId := by
    rw [slotId, slotId, hpzero, hqlarge, zero_mod, mod_self]
  have heq := inj_on_of_nodup_map hnodup hp hq hslot
  rw [heq, hqlarge] at hpzero
  exact absurd hpzero (by decide)

end Root

end LinearAffinity

open LinearAffinity in
/-- At every moment of a tree of splits the arcs of the tasks not yet split tile the ring. Every
divisor is a positive multiple of the factor, no split takes more than there is, and the arc of
each task is tiled by its leaves. The slots of the leaves of a `static_partitioner` differ exactly
if a slot identifier can tell the slots of the arena apart. -/
theorem linearAffinity_arcs (concurrency index : Nat) (hpos : 0 < concurrency)
    (hlt : concurrency < 2 ^ 31) (hindex : index < 2 ^ 16) :
    (∀ (kind : LinearKind) (tree : SplitTree),
      tree.Valid (isDivisible kind) (split kind) (initial kind concurrency index) →
      (initial kind concurrency index).maxAffinity = concurrency * kind.factor ∧
      (tree.leaves (split kind) (initial kind concurrency index)).Pairwise
        (fun p q => List.Disjoint p.slots q.slots) ∧
      ((tree.leaves (split kind) (initial kind concurrency index)).flatMap slots).Perm
        (range (concurrency * kind.factor)) ∧
      ∀ task ∈ tree.parts (split kind) (initial kind concurrency index),
        0 < task.2.divisor ∧ kind.factor ∣ task.2.divisor ∧
        task.2.slots = (task.1.leaves (split kind) task.2).flatMap slots ∧
        (task.2.isDivisible kind = true →
          portion kind (task.2.splitParts kind).2 < task.2.divisor)) ∧
    ((∀ tree : SplitTree,
      tree.Valid (isDivisible .static) (split .static) (initial .static concurrency index) →
      ((tree.leaves (split .static) (initial .static concurrency index)).map slotId).Nodup) ↔
        concurrency ≤ 2 ^ 16) := by
  constructor
  · intro kind tree hvalid
    have h := sound_initial kind hpos hlt hindex
    refine ⟨h.maxAffinity_eq, leaves_pairwise_disjoint hpos hlt hindex hvalid,
      slots_leaves_perm hpos hlt hindex hvalid, ?_⟩
    intro task hmem
    obtain ⟨hsound, htask⟩ := SplitTree.inv_of_mem_parts (P := Sound kind concurrency)
      (fun _ hp => hp.split hlt) h hvalid hmem
    refine ⟨hsound.divisor_pos, hsound.factor_dvd,
      (flatMap_slots_leaves hsound hlt htask).symm, ?_⟩
    intro hdiv
    obtain ⟨left, right, hleft, -, hsum, hportion, -⟩ := hsound.split_eq hlt hdiv
    rw [hportion, hsum, add_mul]
    exact Nat.lt_add_of_pos_left (mul_pos hleft kind.factor_pos)
  · constructor
    · intro hnodup
      by_contra hlarge
      obtain ⟨tree, hvalid, hnot⟩ := exists_not_nodup_slotId hpos hlt hindex .static rfl
        (Nat.lt_of_not_le hlarge)
      exact hnot (hnodup tree hvalid)
    · intro hsmall tree hvalid
      exact nodup_slotId hpos hlt hindex hvalid (le_trans (le_of_eq (mul_one _)) hsmall)

open LinearAffinity in
/-- An arena with four slots and the tree that is split to the end. -/
theorem linearAffinity_arcs_four :
    SplitTree.leaves (split .static) (.node (.node .leaf .leaf) (.node .leaf .leaf))
        (initial .static 4 3) = [⟨1, 3, 4⟩, ⟨1, 0, 4⟩, ⟨1, 1, 4⟩, ⟨1, 2, 4⟩] ∧
      ∀ tree : SplitTree, tree.Valid (isDivisible .static) (split .static) (initial .static 4 3) →
        ((tree.leaves (split .static) (initial .static 4 3)).map slotId).Nodup :=
  ⟨by decide, (linearAffinity_arcs 4 3 (by decide) (by decide) (by decide)).2.mpr (by decide)⟩

open LinearAffinity in
/-- In an arena with 65537 slots two leaves are assigned the same slot. -/
theorem not_nodup_slotId_large :
    ∃ tree : SplitTree, tree.Valid (isDivisible .static) (split .static) (initial .static 65537 0) ∧
      ¬ ((tree.leaves (split .static) (initial .static 65537 0)).map slotId).Nodup :=
  exists_not_nodup_slotId (by decide) (by decide) (by decide) .static rfl (by decide)

end OneTbb.Algorithms
