import OneTbb.Library.Segment
import Mathlib.Data.Multiset.MapFold

/-!
# Binary heaps in an array

The node at position `i` has its parent at `(i - 1) / 2`, and no node is less
than its children. Elements are put in their place by moving a hole up or down
the tree: the pairs of nodes away from the hole stay in order, and what the
neighbours of the hole have to satisfy depends on the direction in which it moves.
-/

namespace OneTbb.BinaryHeap

open Function List

open Segment

variable {α : Type*} {comp : α → α → Bool} {a b : Nat → α} {n lo mid hi hole i : Nat} {x : α}

/-! ## The elements of a segment -/

/-- The elements at the positions `lo ≤ i < hi`. -/
def cells (a : Nat → α) (lo hi : Nat) : Multiset α := ((List.range' lo (hi - lo)).map a : List α)

theorem cells_congr (h : ∀ i, lo ≤ i → i < hi → a i = b i) : cells a lo hi = cells b lo hi := by
  refine congrArg Multiset.ofList (map_congr_left ?_)
  intro i hi
  rw [mem_range'_1] at hi
  exact h i hi.1 (by omega)

theorem cells_self (a : Nat → α) (lo : Nat) : cells a lo lo = 0 := by
  simp [cells]

theorem cells_succ (a : Nat → α) (h : lo ≤ hi) :
    cells a lo (hi + 1) = a hi ::ₘ cells a lo hi := by
  have hlast : lo + (hi - lo) = hi := by omega
  rw [cells, Nat.sub_add_comm h, List.range'_1_concat, map_append, ← Multiset.coe_add,
    hlast, Multiset.add_comm]
  rfl

theorem cells_append (a : Nat → α) (h : lo ≤ mid) (h' : mid ≤ hi) :
    cells a lo mid + cells a mid hi = cells a lo hi := by
  obtain ⟨d, rfl⟩ := Nat.exists_eq_add_of_le h'
  clear h'
  induction d with
  | zero => rw [Nat.add_zero, cells_self, Multiset.add_zero]
  | succ d ih =>
    rw [← Nat.add_assoc, cells_succ a (by omega), cells_succ a (by omega), Multiset.add_cons, ih]

theorem exists_of_mem_cells (h : x ∈ cells a lo hi) : ∃ i, lo ≤ i ∧ i < hi ∧ a i = x := by
  obtain ⟨i, hi, rfl⟩ := mem_map.mp (Multiset.mem_coe.mp h)
  rw [mem_range'_1] at hi
  exact ⟨i, hi.1, by omega, rfl⟩

/-- An update exchanges one element. -/
theorem cells_update (a : Nat → α) (h : lo ≤ i) (h' : i < hi) (x : α) :
    a i ::ₘ cells (update a i x) lo hi = x ::ₘ cells a lo hi := by
  have hbefore : cells (update a i x) lo i = cells a lo i :=
    cells_congr fun k _ hk => update_of_ne (ne_of_lt hk) _ _
  have hbehind : cells (update a i x) (i + 1) hi = cells a (i + 1) hi :=
    cells_congr fun k hk _ => update_of_ne (Nat.ne_of_gt hk) _ _
  rw [← cells_append a (Nat.le_succ_of_le h) h', ← cells_append _ (Nat.le_succ_of_le h) h',
    cells_succ a h, cells_succ _ h, update_self, hbefore, hbehind, Multiset.cons_add,
    Multiset.cons_add, Multiset.cons_swap]

theorem cells_move (a : Nat → α) {j : Nat} (hi' : lo ≤ i ∧ i < hi) (hj : lo ≤ j ∧ j < hi)
    (hne : j ≠ i) (x : α) :
    cells (update (update a i (a j)) j x) lo hi =
      cells (update a i x) lo hi := by
  have h₁ := cells_update (update a i (a j)) hj.1 hj.2 x
  have h₂ := cells_update a hi'.1 hi'.2 (a j)
  have h₃ := cells_update a hi'.1 hi'.2 x
  rw [update_of_ne hne] at h₁
  apply (Multiset.cons_inj_right (a j)).mp
  apply (Multiset.cons_inj_right (a i)).mp
  calc a i ::ₘ a j ::ₘ cells (update (update a i (a j)) j x) lo hi
      = x ::ₘ a i ::ₘ cells (update a i (a j)) lo hi := by
        rw [h₁, Multiset.cons_swap]
    _ = a j ::ₘ x ::ₘ cells a lo hi := by rw [h₂, Multiset.cons_swap]
    _ = a i ::ₘ a j ::ₘ cells (update a i x) lo hi := by
        rw [← h₃, Multiset.cons_swap]

/-! ## Heaps -/

/-- The position of the parent of a node. -/
def parent (i : Nat) : Nat := (i - 1) / 2

/-- The first `n` elements form a heap. -/
def IsHeap (comp : α → α → Bool) (a : Nat → α) (n : Nat) : Prop :=
  ∀ i, 0 < i → i < n → comp (a (parent i)) (a i) = false

theorem parent_lt (h : 0 < i) : parent i < i := by
  unfold parent
  omega

theorem IsHeap.congr (h : IsHeap comp a n) (hab : ∀ i < n, b i = a i) : IsHeap comp b n := by
  intro i hpos hi
  rw [hab i hi, hab (parent i) (lt_trans (parent_lt hpos) hi)]
  exact h i hpos hi

theorem IsHeap.mono {m : Nat} (h : IsHeap comp a n) (hm : m ≤ n) : IsHeap comp a m :=
  fun i hpos hi => h i hpos (lt_of_lt_of_le hi hm)

theorem isHeap_of_le_one (h : n ≤ 1) : IsHeap comp a n := by
  intro i hpos hi
  omega

theorem IsHeap.top (swo : StrictWeak comp) (h : IsHeap comp a n) :
    ∀ i < n, comp (a 0) (a i) = false := by
  intro i
  induction i using Nat.strongRecOn with
  | ind i ih =>
    intro hi
    rcases Nat.eq_zero_or_pos i with rfl | hpos
    · exact swo.irrefl _
    · have hlt := parent_lt hpos
      exact swo.neg_trans (ih (parent i) hlt (lt_trans hlt hi)) (h i hpos hi)

/-- The nodes that are neither at the hole nor below it are in order. -/
def OrderedExcept (comp : α → α → Bool) (a : Nat → α) (n hole : Nat) : Prop :=
  ∀ i, 0 < i → i < n → i ≠ hole → parent i ≠ hole → comp (a (parent i)) (a i) = false

/-- The children of the hole are not above its parent. -/
def OrderedAcross (comp : α → α → Bool) (a : Nat → α) (n hole : Nat) : Prop :=
  0 < hole → ∀ i, 0 < i → i < n → parent i = hole → comp (a (parent hole)) (a i) = false

/-- `x` is not below the children of the hole. -/
def AboveChildren (comp : α → α → Bool) (a : Nat → α) (n hole : Nat) (x : α) : Prop :=
  ∀ i, 0 < i → i < n → parent i = hole → comp x (a i) = false

theorem IsHeap.orderedExcept (h : IsHeap comp a n) (hole : Nat) :
    OrderedExcept comp a n hole := fun i hpos hi _ _ => h i hpos hi

/-- A hole that is filled with an element in order with its neighbours. -/
theorem OrderedExcept.fill (h : OrderedExcept comp a n hole)
    (habove : 0 < hole → comp (a (parent hole)) x = false)
    (hbelow : AboveChildren comp a n hole x) : IsHeap comp (update a hole x) n := by
  intro i hpos hi
  by_cases hih : i = hole
  · subst hih
    rw [update_self, update_of_ne (ne_of_lt (parent_lt hpos))]
    exact habove hpos
  · rw [update_of_ne hih]
    by_cases hph : parent i = hole
    · rw [hph, update_self]
      exact hbelow i hpos hi hph
    · rw [update_of_ne hph]
      exact h i hpos hi hih hph

/-! ## A hole that moves up -/

/-- A hole that is about to be filled with `x`, or to move up. -/
structure Rising (comp : α → α → Bool) (a : Nat → α) (n hole : Nat) (x : α) : Prop where
  except : OrderedExcept comp a n hole
  across : OrderedAcross comp a n hole
  below : AboveChildren comp a n hole x

/-- The element behind a heap is where a hole may start. -/
theorem IsHeap.rising (h : IsHeap comp a n) (x : α) : Rising comp a (n + 1) n x where
  except := by
    intro i hpos hi hne _
    exact h i hpos (by omega)
  across := by
    intro _ i hpos hi hp
    have := parent_lt hpos
    omega
  below := by
    intro i hpos hi hp
    have := parent_lt hpos
    omega

theorem Rising.move (swo : StrictWeak comp) (h : Rising comp a n hole x) (hpos : 0 < hole)
    (hn : hole < n) (hcomp : comp (a (parent hole)) x = true) :
    Rising comp (update a hole (a (parent hole))) n (parent hole) x := by
  have hlt := parent_lt hpos
  -- what is in order with the parent of the hole is in order with `x`, too
  have hx : ∀ y, comp (a (parent hole)) y = false → comp x y = false := by
    intro y hy
    refine Bool.eq_false_iff.mpr fun hxy => ?_
    rw [swo.trans hcomp hxy] at hy
    cases hy
  have hup : 0 < parent hole → comp (a (parent (parent hole))) (a (parent hole)) = false := by
    intro hpos'
    have := parent_lt hpos'
    exact h.except _ hpos' (by omega) (by omega) (by omega)
  have hsibling : ∀ i, 0 < i → i < n → parent i = parent hole → i ≠ hole →
      comp (a (parent hole)) (a i) = false := by
    intro i hi hin hp hne
    rw [← hp]
    exact h.except i hi hin hne (by omega)
  constructor
  case except =>
    intro i hi hin hne hp
    have hih : i ≠ hole := by
      rintro rfl
      exact hp rfl
    rw [update_of_ne hih]
    by_cases hph : parent i = hole
    · rw [hph, update_self]
      exact h.across hpos i hi hin hph
    · rw [update_of_ne hph]
      exact h.except i hi hin hih hph
  case across =>
    intro hpos' i hi hin hp
    have := parent_lt hpos'
    rw [update_of_ne (show parent (parent hole) ≠ hole by omega)]
    by_cases hih : i = hole
    · rw [hih, update_self]
      exact hup hpos'
    · rw [update_of_ne hih]
      exact swo.neg_trans (hup hpos') (hsibling i hi hin hp hih)
  case below =>
    intro i hi hin hp
    by_cases hih : i = hole
    · rw [hih, update_self]
      exact hx _ (swo.irrefl _)
    · rw [update_of_ne hih]
      exact hx _ (hsibling i hi hin hp hih)

theorem Rising.fill (h : Rising comp a n hole x)
    (habove : 0 < hole → comp (a (parent hole)) x = false) :
    IsHeap comp (update a hole x) n := h.except.fill habove h.below

/-! ## A hole that moves down -/

/-- A hole that is about to be filled with `x`, or to move down. -/
structure Sinking (comp : α → α → Bool) (a : Nat → α) (n hole : Nat) (x : α) : Prop where
  except : OrderedExcept comp a n hole
  across : OrderedAcross comp a n hole
  above : 0 < hole → comp (a (parent hole)) x = false

/-- The top of a heap is where a hole may start. -/
theorem IsHeap.sinking (h : IsHeap comp a n) (x : α) : Sinking comp a n 0 x :=
  ⟨h.orderedExcept 0, fun hpos => by omega, fun hpos => by omega⟩

theorem Sinking.move {child : Nat} (h : Sinking comp a n hole x) (hpos : 0 < child)
    (hn : child < n) (hp : parent child = hole) (hbest : AboveChildren comp a n hole (a child))
    (hcomp : comp (a child) x = false) :
    Sinking comp (update a hole (a child)) n child x := by
  have hlt := parent_lt hpos
  constructor
  case except =>
    intro i hi hin hne hpi
    by_cases hih : i = hole
    · subst hih
      rw [update_self, update_of_ne (ne_of_lt (parent_lt hi))]
      exact h.across hi child hpos hn hp
    · rw [update_of_ne hih]
      by_cases hph : parent i = hole
      · rw [hph, update_self]
        exact hbest i hi hin hph
      · rw [update_of_ne hph]
        exact h.except i hi hin hih hph
  case across =>
    intro _ i hi hin hpi
    have := parent_lt hi
    rw [hp, update_self, update_of_ne (by omega), ← hpi]
    exact h.except i hi hin (by omega) (by omega)
  case above =>
    intro _
    rw [hp, update_self]
    exact hcomp

theorem Sinking.fill (h : Sinking comp a n hole x) (hbelow : AboveChildren comp a n hole x) :
    IsHeap comp (update a hole x) n := h.except.fill h.above hbelow

end OneTbb.BinaryHeap
