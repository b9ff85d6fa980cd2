import OneTbb.Library.Segment
import Mathlib.Data.List.Sort

/-!
# Selecting the first elements of a list

A comparator says which of two elements comes first. The ordering algorithms of
a standard library are given by what they promise, so that results hold for each
implementation of them. The lemmas count how many elements of a list come before
a given one.
-/

namespace OneTbb.Selection

open List

open Segment (StrictWeak)

variable {α : Type*}

/-- No element comes before one that stands in front of it. -/
def InOrder (comp : α → α → Bool) (l : List α) : Prop :=
  l.Pairwise fun a b => comp b a = false

/-- `std::sort` and `std::nth_element` for one comparator. -/
structure OrderAlgorithms (comp : α → α → Bool) where
  sort : List α → List α
  sort_perm : ∀ l, (sort l).Perm l
  sort_inOrder : ∀ l, InOrder comp (sort l)
  nthElement : Nat → List α → List α
  nthElement_perm : ∀ n l, (nthElement n l).Perm l
  nthElement_least : ∀ n l x, (nthElement n l)[n]? = some x →
    ∀ i y, i ≤ n → (nthElement n l)[i]? = some y → comp x y = false
  nthElement_greatest : ∀ n l x, (nthElement n l)[n]? = some x →
    ∀ y ∈ (nthElement n l).drop n, comp y x = false

/-- `std::upper_bound` followed by an insertion at the position found. -/
def insertUpper (comp : α → α → Bool) (x : α) : List α → List α
  | [] => [x]
  | y :: ys => if comp x y then x :: y :: ys else y :: insertUpper comp x ys

variable {comp : α → α → Bool}

theorem insertUpper_perm (x : α) (l : List α) : (insertUpper comp x l).Perm (x :: l) := by
  induction l with
  | nil => exact List.Perm.refl _
  | cons y ys ih =>
    unfold insertUpper
    split
    · exact List.Perm.refl _
    · exact (ih.cons y).trans (List.Perm.swap x y ys)

theorem insertUpper_inOrder (hc : StrictWeak comp) (x : α) {l : List α} (h : InOrder comp l) :
    InOrder comp (insertUpper comp x l) := by
  induction l with
  | nil => exact pairwise_singleton _ _
  | cons y ys ih =>
    obtain ⟨hy, hys⟩ := pairwise_cons.mp h
    unfold insertUpper
    split
    · rename_i hxy
      apply pairwise_cons.mpr
      constructor
      · intro z hz
        cases hzx : comp z x with
        | false => rfl
        | true =>
          have hzy := hc.trans hzx hxy
          obtain rfl | hz := mem_cons.mp hz
          · rw [hc.irrefl] at hzy
            cases hzy
          · rw [hy z hz] at hzy
            cases hzy
      · exact h
    · rename_i hxy
      apply pairwise_cons.mpr
      constructor
      · intro z hz
        obtain rfl | hz := mem_cons.mp ((insertUpper_perm x ys).mem_iff.mp hz)
        · exact Bool.eq_false_iff.mpr hxy
        · exact hy z hz
      · exact ih hys

/-- If the elements up to position `n` do not come after the one there, and that
one comes before `x`, then all of them do. -/
theorem le_countP_of_least (hc : StrictWeak comp) {l : List α} {n : Nat} {t x : α}
    (ht : l[n]? = some t)
    (hleast : ∀ i y, i ≤ n → l[i]? = some y → comp t y = false) (hx : comp t x = true) :
    n + 1 ≤ l.countP fun y => comp y x := by
  have hlen : n < l.length := (List.getElem?_eq_some_iff.mp ht).1
  have hall : ∀ y ∈ l.take (n + 1), comp y x = true := by
    intro y hy
    obtain ⟨i, hi⟩ := mem_iff_getElem?.mp hy
    have hin : i < n + 1 := by
      have := (List.getElem?_eq_some_iff.mp hi).1
      rw [length_take] at this
      omega
    rw [List.getElem?_take_of_lt hin] at hi
    have hty := hleast i y (by omega) hi
    cases hyx : comp y x with
    | true => rfl
    | false =>
      rw [hc.neg_trans hty hyx] at hx
      cases hx
  calc n + 1 = (l.take (n + 1)).length := by rw [length_take]; omega
    _ = (l.take (n + 1)).countP (fun y => comp y x) := (countP_eq_length.mpr hall).symm
    _ ≤ l.countP fun y => comp y x := (take_sublist _ _).countP_le

theorem InOrder.least {l : List α} (h : InOrder comp l) (hc : StrictWeak comp) {n : Nat} {t : α}
    (ht : l[n]? = some t) (i : Nat) (y : α) (hi : i ≤ n) (hy : l[i]? = some y) :
    comp t y = false := by
  obtain ⟨hn, rfl⟩ := List.getElem?_eq_some_iff.mp ht
  obtain ⟨hi', rfl⟩ := List.getElem?_eq_some_iff.mp hy
  obtain heq | hlt := Nat.eq_or_lt_of_le hi
  · subst heq
    exact hc.irrefl _
  · exact pairwise_iff_getElem.mp h i n hi' hn hlt

theorem InOrder.greatest {l : List α} (h : InOrder comp l) (hc : StrictWeak comp) {n : Nat} {t : α}
    (ht : l[n]? = some t) (y : α) (hy : y ∈ l.drop n) : comp y t = false := by
  obtain ⟨hn, rfl⟩ := List.getElem?_eq_some_iff.mp ht
  rw [drop_eq_getElem_cons hn] at hy
  obtain rfl | hy := mem_cons.mp hy
  · exact hc.irrefl _
  · have hdrop := List.Pairwise.sublist (drop_sublist n l) h
    rw [drop_eq_getElem_cons hn] at hdrop
    exact (pairwise_cons.mp hdrop).1 y hy

/-- A nonempty list has an element that no other one comes before. -/
theorem exists_first (hc : StrictWeak comp) {l : List α} (h : l ≠ []) :
    ∃ m ∈ l, ∀ x ∈ l, comp x m = false := by
  induction l with
  | nil => exact absurd rfl h
  | cons a rest ih =>
    by_cases hrest : rest = []
    · subst hrest
      exact ⟨a, mem_cons_self, fun x hx => by
        rw [mem_singleton.mp hx]
        exact hc.irrefl a⟩
    · obtain ⟨m, hm, hmin⟩ := ih hrest
      cases ham : comp a m with
      | true =>
        apply Exists.intro a
        constructor
        · exact mem_cons_self
        · intro x hx
          obtain rfl | hx := mem_cons.mp hx
          · exact hc.irrefl x
          · cases hxa : comp x a with
            | false => rfl
            | true =>
              have := hmin x hx
              rw [hc.trans hxa ham] at this
              cases this
      | false =>
        apply Exists.intro m
        constructor
        · exact mem_cons_of_mem a hm
        · intro x hx
          obtain rfl | hx := mem_cons.mp hx
          · exact ham
          · exact hmin x hx

/-- Sorting by repeated insertion. -/
def insertionSort (comp : α → α → Bool) (l : List α) : List α := l.foldr (insertUpper comp) []

theorem insertionSort_perm (l : List α) : (insertionSort comp l).Perm l := by
  induction l with
  | nil => exact List.Perm.refl _
  | cons a rest ih => exact (insertUpper_perm a _).trans (ih.cons a)

theorem insertionSort_inOrder (hc : StrictWeak comp) (l : List α) :
    InOrder comp (insertionSort comp l) := by
  induction l with
  | nil => exact List.Pairwise.nil
  | cons a rest ih => exact insertUpper_inOrder hc a ih

/-- Insertion sort provides the ordering algorithms. -/
def insertionAlgorithms (comp : α → α → Bool) (hc : StrictWeak comp) : OrderAlgorithms comp where
  sort := insertionSort comp
  sort_perm := insertionSort_perm
  sort_inOrder := insertionSort_inOrder hc
  nthElement := fun _ => insertionSort comp
  nthElement_perm := fun _ => insertionSort_perm
  nthElement_least := fun _ l _ hx => (insertionSort_inOrder hc l).least hc hx
  nthElement_greatest := fun _ l _ hx => (insertionSort_inOrder hc l).greatest hc hx

/-- `std::priority_queue`: the order in which the elements pushed come out again,
the greatest first. Ties come out in any order. -/
structure PriorityQueue where
  drain : {β : Type} → (β → β → Bool) → List β → List β
  drain_perm : ∀ {β : Type} (less : β → β → Bool) (l : List β), (drain less l).Perm l
  drain_inOrder : ∀ {β : Type} (less : β → β → Bool), StrictWeak less →
    ∀ l, (drain less l).Pairwise fun a b => less a b = false

theorem StrictWeak.flip {less : α → α → Bool} (h : StrictWeak less) :
    StrictWeak fun a b => less b a where
  irrefl := h.irrefl
  trans := fun hab hbc => h.trans hbc hab
  incomp_trans := fun hab hba hbc hcb => h.incomp_trans hbc hcb hab hba

/-- A queue that keeps its elements sorted. -/
def sortedQueue : PriorityQueue where
  drain := fun less => insertionSort fun a b => less b a
  drain_perm := fun _ => insertionSort_perm
  drain_inOrder := fun _ h => insertionSort_inOrder (StrictWeak.flip h)

end OneTbb.Selection
