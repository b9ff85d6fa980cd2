import OneTbb.Sort.Model
import Mathlib.Algebra.BigOperators.Group.List.Basic
import Mathlib.Algebra.Order.Ring.Nat

/-!
# The ranges of the quick sort tasks

The invariant of the sort is about pairs of positions: two positions are either
in the range of one task or already in order. Ranges are disjoint, so a task
may rearrange its range without disturbing the order of any other pair. In
particular the element before a range that is not leftmost is at most every
element of the range, which is what the test for equal pivots relies on.
-/

namespace OneTbb.Sort

open List Nat

open Segment

variable {α : Type*} {comp : α → α → Bool} {n : Nat}

/-- Two tasks whose ranges do not overlap. -/
def Apart (t u : Task) : Prop := t.range.last ≤ u.range.first ∨ u.range.last ≤ t.range.first

/-- The bounds of a range. A range that is not leftmost, unless it is empty, has
an element before it. -/
structure QuickSortRange.Within (t : QuickSortRange) (lo hi : Nat) : Prop where
  lo_le : lo ≤ t.first
  first_le : t.first ≤ t.last
  le_hi : t.last ≤ hi
  pos : t.leftmost = false → t.first < t.last → 0 < t.first

structure TasksInv (comp : α → α → Bool) (n : Nat) (a : Nat → α) (tasks : List Task) :
    Prop where
  within : ∀ t ∈ tasks, t.range.Within 0 n
  apart : tasks.Pairwise Apart
  ordered : ∀ i j, i < j → j < n →
    (∃ t ∈ tasks, t.range.Mem i ∧ t.range.Mem j) ∨ comp (a j) (a i) = false

variable {a a' : Nat → α} {xs ys : List Task} {t : Task}

section

variable (h : TasksInv comp n a (xs ++ t :: ys))
include h

/-- The other tasks stay away from the range of a task. -/
theorem TasksInv.apart_of_mem {u : Task} (hu : u ∈ xs ++ ys) : Apart t u := by
  obtain ⟨_, hrest, hcross⟩ := pairwise_append.mp h.apart
  rcases mem_append.mp hu with hx | hy
  · exact (hcross u hx t (mem_cons_self)).symm
  · exact (pairwise_cons.mp hrest).1 u hy

/-- A position in the range of a task and one outside of it are in order. -/
theorem TasksInv.ordered_across {i j : Nat}
    (hij : i < j) (hj : j < n) (hin : t.range.Mem i ∨ t.range.Mem j)
    (hout : ¬ (t.range.Mem i ∧ t.range.Mem j)) : comp (a j) (a i) = false := by
  refine (h.ordered i j hij hj).resolve_left ?_
  rintro ⟨u, hu, hi', hj'⟩
  have hu' : u = t ∨ u ∈ xs ++ ys := by
    simp only [mem_append, mem_cons] at hu ⊢
    tauto
  rcases hu' with rfl | hu'
  · exact hout ⟨hi', hj'⟩
  · have := h.apart_of_mem hu'
    unfold Apart at this
    unfold QuickSortRange.Mem at hin hi' hj'
    omega

theorem TasksInv.before {i j : Nat}
    (hi : t.range.Mem i) (hj : j < t.range.first) : comp (a i) (a j) = false := by
  have hn := (h.within t (by simp)).le_hi
  obtain ⟨h₁, h₂⟩ := hi
  exact h.ordered_across (by omega) (by omega) (.inr ⟨h₁, h₂⟩) fun hb => by
    have := hb.1.1
    omega

theorem TasksInv.behind {i j : Nat}
    (hi : t.range.Mem i) (hj : t.range.last ≤ j) (hjn : j < n) : comp (a j) (a i) = false := by
  obtain ⟨h₁, h₂⟩ := hi
  exact h.ordered_across (by omega) hjn (.inl ⟨h₁, h₂⟩) fun hb => by
    have := hb.2.2
    omega

end

variable {r : QuickSortRange} {ts : List Task}

/-- Replacing a task by tasks on parts of its range, after rearranging the range,
leaves only the order inside the range to be checked. -/
theorem TasksInv.refine (h : TasksInv comp n a (xs ++ t :: ys))
    (hperm : PermOn t.range.first t.range.last a a')
    (hts : ∀ u ∈ ts, u.range.Within t.range.first t.range.last) (hapart : ts.Pairwise Apart)
    (hord : ∀ i j, i < j → t.range.Mem i → t.range.Mem j →
      (∃ u ∈ ts, u.range.Mem i ∧ u.range.Mem j) ∨ comp (a' j) (a' i) = false) :
    TasksInv comp n a' (xs ++ ts ++ ys) := by
  have hsub : xs ++ ys ⊆ xs ++ t :: ys := by
    intro u hu
    simp only [mem_append, mem_cons] at hu ⊢
    tauto
  refine ⟨fun u hu => ?_, ?_, fun i j hij hj => ?_⟩
  · have ht := h.within t (by simp)
    rcases (show u ∈ xs ++ ys ∨ u ∈ ts by simp only [mem_append] at hu ⊢; tauto) with hu | hu
    · exact h.within u (hsub hu)
    · exact ⟨zero_le _, (hts u hu).first_le, le_trans (hts u hu).le_hi ht.le_hi,
        (hts u hu).pos⟩
  · have hnew : ∀ u ∈ ts, ∀ w ∈ xs ++ ys, Apart u w := by
      intro u hu w hw
      have h₁ := h.apart_of_mem hw
      have h₂ := (hts u hu).lo_le
      have h₃ := (hts u hu).le_hi
      unfold Apart at h₁ ⊢
      omega
    obtain ⟨hx, hrest, hcross⟩ := pairwise_append.mp h.apart
    obtain ⟨_, hy⟩ := pairwise_cons.mp hrest
    rw [append_assoc]
    refine pairwise_append.mpr ⟨hx, pairwise_append.mpr ⟨hapart, hy, ?_⟩, ?_⟩
    · exact fun u hu w hw => hnew u hu w (mem_append_right _ hw)
    · intro u hu w hw
      rcases mem_append.mp hw with hw | hw
      · exact (hnew w hw u (mem_append_left _ hu)).symm
      · exact hcross u hu w (mem_cons_of_mem _ hw)
  · by_cases hi' : t.range.Mem i <;> by_cases hj' : t.range.Mem j
    · refine (hord i j hij hi' hj').imp_left ?_
      rintro ⟨u, hu, hb⟩
      exact ⟨u, by simp [hu], hb⟩
    · -- `j` is behind the range, and so is it for the old position of `a' i`
      obtain ⟨i', hi'', heq⟩ := hperm.inside hi'
      rw [heq, hperm.outside hj']
      refine .inr (h.behind hi'' ?_ hj)
      unfold QuickSortRange.Mem at hi' hj'
      omega
    · obtain ⟨j', hj'', heq⟩ := hperm.inside hj'
      rw [heq, hperm.outside hi']
      refine .inr (h.before hj'' ?_)
      unfold QuickSortRange.Mem at hi' hj'
      omega
    · rw [hperm.outside hi', hperm.outside hj']
      refine (h.ordered i j hij hj).imp_left ?_
      rintro ⟨u, hu, hb⟩
      have hne : u ≠ t := by
        rintro rfl
        exact hi' hb.1
      refine ⟨u, ?_, hb⟩
      simp only [mem_append, mem_cons] at hu ⊢
      tauto

theorem first_lt_last {t : QuickSortRange} (h : t.isDivisible = true) : t.first < t.last := by
  have hsize : 500 ≤ t.last - t.first := of_decide_eq_true h
  omega

theorem medianOfThree_lt {first l m r k : Nat} (hl : l < k) (hm : m < k) (hr : r < k) :
    medianOfThree comp a first l m r < k := by
  unfold medianOfThree
  split_ifs <;> assumption

theorem pseudoMedianOfNine_lt {t : QuickSortRange} (h : t.isDivisible = true) :
    t.first + pseudoMedianOfNine comp a t < t.last := by
  have hsize : 500 ≤ t.last - t.first := of_decide_eq_true h
  have hlt : pseudoMedianOfNine comp a t < t.last - t.first := by
    refine medianOfThree_lt (medianOfThree_lt ?_ ?_ ?_) (medianOfThree_lt ?_ ?_ ?_)
      (medianOfThree_lt ?_ ?_ ?_) <;> omega
  omega

theorem permOn_placePivot {t : QuickSortRange} (h : t.isDivisible = true) :
    PermOn t.first t.last a (placePivot comp a t) := by
  have hlt := @pseudoMedianOfNine_lt _ comp a t h
  exact PermOn.swap a ⟨le_rfl, by omega⟩ ⟨by omega, hlt⟩

/-- A pivot equal to the element before the range: the elements that are not
greater than it are all equal, and in their final positions. -/
theorem TasksInv.equal (swo : StrictWeak comp) {b : Bool}
    (h : TasksInv comp n a (xs ++ ⟨r, b⟩ :: ys)) (hd : r.isDivisible = true) {equalEnd : Nat}
    (heq : equalsPreviousPivot comp (placePivot comp a r) r = true)
    (hperm : PermOn (r.first + 1) r.last (placePivot comp a r) a')
    (hpart : PartitionedOn (fun x => !comp (placePivot comp a r r.first) x)
      (r.first + 1) equalEnd r.last a') :
    TasksInv comp n a' (xs ++ [⟨{ r with first := equalEnd }, true⟩] ++ ys) := by
  have hall := (permOn_placePivot hd).trans (hperm.mono (le_succ _) le_rfl)
  have hpivot : a' r.first = placePivot comp a r r.first := hperm.outside (by omega)
  simp only [equalsPreviousPivot, Bool.and_eq_true, Bool.not_eq_true'] at heq
  have hpos : 0 < r.first := (h.within ⟨r, b⟩ (by simp)).pos heq.1 (first_lt_last hd)
  have hprev : placePivot comp a r (r.first - 1) = a (r.first - 1) :=
    (permOn_placePivot hd).outside (by omega)
  rw [← hpivot, hprev] at heq
  -- nothing in the range is less than the pivot
  have hge : ∀ j, r.Mem j → comp (a' j) (a' r.first) = false := by
    intro j hj
    obtain ⟨j', hj', hja⟩ := hall.inside hj
    rw [hja]
    exact swo.neg_trans (h.before hj' (sub_lt hpos Nat.one_pos)) heq.2
  have hle : ∀ i, r.first ≤ i → i < equalEnd → comp (a' r.first) (a' i) = false := by
    intro i h₁ h₂
    rcases eq_or_lt_of_le h₁ with rfl | h₁
    · exact swo.irrefl _
    · simpa [hpivot] using hpart.true_of_lt i h₁ h₂
  have hlo := hpart.lo_le
  have hhi := hpart.le_hi
  refine h.refine hall ?_ (pairwise_singleton _ _) fun i j hij hi hj => ?_
  · simp only [mem_singleton, forall_eq]
    exact ⟨by simp; omega, hhi, le_rfl, fun _ _ => by simp; omega⟩
  · by_cases hi' : i < equalEnd
    · exact .inr (swo.neg_trans (hge j hj) (hle i hi.1 hi'))
    · refine .inl ⟨_, mem_singleton_self _, ⟨not_lt.mp hi', hi.2⟩, ?_, hj.2⟩
      simp only
      omega

theorem pivotPosition_bounds {it : Nat} (h₁ : r.first + 1 ≤ it)
    (h₂ : it ≤ r.last) : r.first ≤ pivotPosition r it ∧ pivotPosition r it < r.last ∧
      pivotPosition r it + 1 = it := by
  unfold pivotPosition
  split_ifs <;> omega

/-- After a partition the pivot separates the smaller elements from the others. -/
theorem pivot_separates {it : Nat} {p : α} (hp : a' r.first = p)
    (hpart : PartitionedOn (fun x => comp x p) (r.first + 1) it r.last a') :
    let a'' := a' ∘ Equiv.swap r.first (pivotPosition r it)
    a'' (pivotPosition r it) = p ∧
      (∀ i, r.first ≤ i → i < pivotPosition r it → comp (a'' i) p = true) ∧
      ∀ i, pivotPosition r it < i → i < r.last → comp (a'' i) p = false := by
  obtain ⟨h₁, h₂, h₃⟩ := pivotPosition_bounds hpart.lo_le hpart.le_hi
  simp only [Function.comp_apply]
  refine ⟨by rw [Equiv.swap_apply_right, hp], fun i hi hlt => ?_, fun i hlt hi => ?_⟩
  · rcases eq_or_lt_of_le hi with rfl | hi
    · rw [Equiv.swap_apply_left]
      exact hpart.true_of_lt _ (by omega) (by omega)
    · rw [Equiv.swap_apply_of_ne_of_ne (by omega) (by omega)]
      exact hpart.true_of_lt i hi (by omega)
  · rw [Equiv.swap_apply_of_ne_of_ne (by omega) (by omega)]
    exact hpart.false_of_le i (by omega) hi

/-- The parts of `splitAt` lie on their side of the pivot, and every two
positions on one side are in one part. -/
theorem splitAt_spec {pp : Nat} (h₁ : r.first ≤ pp) (h₂ : pp < r.last)
    (hpos : r.leftmost = false → 0 < r.first) :
    (∀ u ∈ splitAt r pp, u.range.Within r.first r.last) ∧ (splitAt r pp).Pairwise Apart ∧
      (∀ i j, r.first ≤ i → i < j → j < pp →
        ∃ u ∈ splitAt r pp, u.range.Mem i ∧ u.range.Mem j) ∧
      ∀ i j, pp < i → i < j → j < r.last →
        ∃ u ∈ splitAt r pp, u.range.Mem i ∧ u.range.Mem j := by
  have hl : QuickSortRange.Within { r with last := pp } r.first r.last :=
    ⟨le_rfl, h₁, le_of_lt h₂, fun hl _ => hpos hl⟩
  have hr : QuickSortRange.Within ⟨pp + 1, r.last, false⟩ r.first r.last :=
    ⟨le_succ_of_le h₁, h₂, le_rfl, fun _ _ => succ_pos _⟩
  have hleft : ∀ i j, r.first ≤ i → i < j → j < pp →
      QuickSortRange.Mem { r with last := pp } i ∧ QuickSortRange.Mem { r with last := pp } j :=
    fun i j h h' h'' => ⟨⟨h, lt_trans h' h''⟩, le_trans h (le_of_lt h'), h''⟩
  have hright : ∀ i j, pp < i → i < j → j < r.last →
      QuickSortRange.Mem ⟨pp + 1, r.last, false⟩ i ∧
        QuickSortRange.Mem ⟨pp + 1, r.last, false⟩ j :=
    fun i j h h' h'' => ⟨⟨h, lt_trans h' h''⟩, lt_trans h h', h''⟩
  unfold splitAt
  simp only
  split_ifs
  · exact ⟨by simpa using hr, pairwise_singleton _ _, by omega,
      fun i j h h' h'' => ⟨_, mem_singleton_self _, hright i j h h' h''⟩⟩
  · exact ⟨by simpa using hl, pairwise_singleton _ _,
      fun i j h h' h'' => ⟨_, mem_singleton_self _, hleft i j h h' h''⟩, by omega⟩
  · exact ⟨by simpa using ⟨hr, hl⟩, pairwise_pair.mpr (.inr (le_succ pp)),
      fun i j h h' h'' => ⟨_, mem_cons_of_mem _ mem_cons_self, hleft i j h h' h''⟩,
      fun i j h h' h'' => ⟨_, mem_cons_self, hright i j h h' h''⟩⟩
  · exact ⟨by simpa using ⟨hl, hr⟩, pairwise_pair.mpr (.inl (le_succ pp)),
      fun i j h h' h'' => ⟨_, mem_cons_self, hleft i j h h' h''⟩,
      fun i j h h' h'' => ⟨_, mem_cons_of_mem _ mem_cons_self, hright i j h h' h''⟩⟩

theorem TasksInv.less (swo : StrictWeak comp) {b : Bool}
    (h : TasksInv comp n a (xs ++ ⟨r, b⟩ :: ys)) (hd : r.isDivisible = true) {it : Nat}
    (hperm : PermOn (r.first + 1) r.last (placePivot comp a r) a')
    (hpart : PartitionedOn (fun x => comp x (placePivot comp a r r.first))
      (r.first + 1) it r.last a') :
    TasksInv comp n (a' ∘ Equiv.swap r.first (pivotPosition r it))
      (xs ++ splitAt r (pivotPosition r it) ++ ys) := by
  obtain ⟨h₁, h₂, _⟩ := pivotPosition_bounds hpart.lo_le hpart.le_hi
  obtain ⟨hpp, hless, hgreater⟩ := pivot_separates (hperm.outside (by omega)) hpart
  obtain ⟨hwithin, hapart, hleft, hright⟩ :=
    splitAt_spec h₁ h₂ fun hl => (h.within ⟨r, b⟩ (by simp)).pos hl (first_lt_last hd)
  have hall := ((permOn_placePivot hd).trans (hperm.mono (le_succ _) le_rfl)).trans
    (PermOn.swap a' ⟨le_rfl, lt_of_le_of_lt h₁ h₂⟩ ⟨h₁, h₂⟩)
  refine h.refine hall hwithin hapart fun i j hij hi hj => ?_
  generalize placePivot comp a r r.first = p at hpp hless hgreater
  generalize a' ∘ Equiv.swap r.first (pivotPosition r it) = a'' at hpp hless hgreater ⊢
  -- the pivot is not greater than what follows and greater than what precedes
  have hge : pivotPosition r it ≤ j → comp (a'' j) p = false := by
    intro hle
    rcases eq_or_lt_of_le hle with rfl | hlt
    · rw [hpp, swo.irrefl]
    · exact hgreater j hlt hj.2
  have hle : i ≤ pivotPosition r it → comp p (a'' i) = false := by
    intro hle
    rcases eq_or_lt_of_le hle with rfl | hlt
    · rw [hpp, swo.irrefl]
    · refine Bool.eq_false_iff.mpr fun hc => ?_
      simpa [swo.irrefl] using swo.trans hc (hless i hi.1 hlt)
  rcases lt_or_ge j (pivotPosition r it) with hj' | hj'
  · exact .inl (hleft i j hi.1 hij hj')
  · rcases lt_or_ge (pivotPosition r it) i with hi' | hi'
    · exact .inl (hright i j hi' hij hj.2)
    · exact .inr (swo.neg_trans (hge hj') (hle hi'))

theorem TasksInv.split (swo : StrictWeak comp) {b : Bool}
    (h : TasksInv comp n a (xs ++ ⟨r, b⟩ :: ys)) (hd : r.isDivisible = true)
    (hs : SplitUnchecked comp a r a' ts) : TasksInv comp n a' (xs ++ ts ++ ys) := by
  cases hs with
  | equal heq hperm hpart => exact h.equal swo hd heq hperm hpart
  | less _ hperm hpart => exact h.less swo hd hperm hpart

theorem SplitUnchecked.permOn (hd : r.isDivisible = true) (hs : SplitUnchecked comp a r a' ts) :
    PermOn r.first r.last a a' := by
  cases hs with
  | equal _ hperm _ => exact (permOn_placePivot hd).trans (hperm.mono (le_succ _) le_rfl)
  | less _ hperm hpart =>
    obtain ⟨h₁, h₂, _⟩ := pivotPosition_bounds hpart.lo_le hpart.le_hi
    exact ((permOn_placePivot hd).trans (hperm.mono (le_succ _) le_rfl)).trans
      (PermOn.swap _ ⟨le_rfl, lt_of_le_of_lt h₁ h₂⟩ ⟨h₁, h₂⟩)

theorem exists_splitUnchecked (a : Nat → α) (hd : r.isDivisible = true) :
    ∃ a' ts, SplitUnchecked comp a r a' ts := by
  have hle : r.first + 1 ≤ r.last := first_lt_last hd
  cases heq : equalsPreviousPivot comp (placePivot comp a r) r with
  | true =>
    obtain ⟨a', mid, hperm, hpart⟩ := exists_partitionedOn
      (fun x => !comp (placePivot comp a r r.first) x) (placePivot comp a r) hle
    exact ⟨_, _, SplitUnchecked.equal heq hperm hpart⟩
  | false =>
    obtain ⟨a', mid, hperm, hpart⟩ := exists_partitionedOn
      (fun x => comp x (placePivot comp a r r.first)) (placePivot comp a r) hle
    exact ⟨_, _, SplitUnchecked.less heq hperm hpart⟩

/-- An upper bound on the steps a task can still cause. -/
def Task.work (t : Task) : Nat :=
  6 * (t.range.last - t.range.first) + if t.inSplit then 5 else 2

theorem splitAt_work {pp : Nat} (h₁ : r.first ≤ pp) (h₂ : pp < r.last) :
    ((splitAt r pp).map Task.work).sum < 6 * (r.last - r.first) + 2 := by
  unfold splitAt Task.work
  simp only
  split_ifs <;> simp <;> omega

/-- Splitting lowers the bound, because at least the pivot leaves the ranges. -/
theorem SplitUnchecked.work_lt (b : Bool)
    (hd : r.isDivisible = true) (hs : SplitUnchecked comp a r a' ts) :
    (ts.map Task.work).sum < (Task.mk r b).work := by
  have hle : 6 * (r.last - r.first) + 2 ≤ (Task.mk r b).work := by
    cases b <;> simp [Task.work]
  refine lt_of_lt_of_le ?_ hle
  have hsize : 500 ≤ r.last - r.first := of_decide_eq_true hd
  cases hs with
  | equal _ _ hpart =>
    have := hpart.lo_le
    simp [Task.work]
    omega
  | less _ _ hpart =>
    obtain ⟨h₁, h₂, _⟩ := pivotPosition_bounds hpart.lo_le hpart.le_hi
    exact splitAt_work h₁ h₂

end OneTbb.Sort
