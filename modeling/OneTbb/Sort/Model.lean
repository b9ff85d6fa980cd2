import OneTbb.Library.Segment

/-!
# The tasks of `parallel_sort`

The sequence is a function on positions, iterators are positions. The state of
the sort is the sequence with the set of ranges its tasks hold. What
`std::sort`, `std::partition` and `parallel_partition` may do is given by their
specifications, so a step may end in any sequence they allow. Which ranges are
split and in which order tasks run are choices of the step relation too.
-/

namespace OneTbb.Sort

open Segment

variable {α : Type*}

/-- `quick_sort_range`, without the comparator and the context all ranges share. -/
structure QuickSortRange where
  first : Nat
  last : Nat
  leftmost : Bool

/-- `quick_sort_range::grainsize` -/
def grainsize : Nat := 500

/-- `min_parallel_size` -/
def minParallelSize : Nat := 500

/-- `serial_cutoff` -/
def serialCutoff : Nat := 9

def QuickSortRange.isDivisible (t : QuickSortRange) : Bool :=
  decide (grainsize ≤ t.last - t.first)

/-- The positions of a range. -/
def QuickSortRange.Mem (t : QuickSortRange) (i : Nat) : Prop := t.first ≤ i ∧ i < t.last

/-- `median_of_three`, on offsets from `m_first` -/
def medianOfThree (comp : α → α → Bool) (a : Nat → α) (first l m r : Nat) : Nat :=
  if comp (a (first + l)) (a (first + m)) then
    if comp (a (first + m)) (a (first + r)) then m
    else if comp (a (first + l)) (a (first + r)) then r else l
  else
    if comp (a (first + r)) (a (first + m)) then m
    else if comp (a (first + r)) (a (first + l)) then r else l

/-- `pseudo_median_of_nine` -/
def pseudoMedianOfNine (comp : α → α → Bool) (a : Nat → α) (t : QuickSortRange) : Nat :=
  let n := t.last - t.first
  let offset := n / 8
  medianOfThree comp a t.first
    (medianOfThree comp a t.first 0 offset (offset * 2))
    (medianOfThree comp a t.first (offset * 3) (offset * 4) (offset * 5))
    (medianOfThree comp a t.first (offset * 6) (offset * 7) (n - 1))

/-- The sequence with the pivot at the beginning of the range. -/
def placePivot (comp : α → α → Bool) (a : Nat → α) (t : QuickSortRange) : Nat → α :=
  a ∘ Equiv.swap t.first (t.first + pseudoMedianOfNine comp a t)

/-- A range held by a task. `inSplit` is set while the task is in
`split_checked`. -/
structure Task where
  range : QuickSortRange
  inSplit : Bool

/-- The test for a pivot equal to the one the range was cut off with. -/
def equalsPreviousPivot (comp : α → α → Bool) (a : Nat → α) (t : QuickSortRange) : Bool :=
  !t.leftmost && !comp (a (t.first - 1)) (a t.first)

/-- Where the pivot goes after a partition that ended at `it`. -/
def pivotPosition (t : QuickSortRange) (it : Nat) : Nat :=
  if it = t.first + 1 then t.first else it - 1

/-- The end of `split_unchecked`: the smaller part stays in the range that is
split, and the splitting is rerun if there is nothing for one of the parts. -/
def splitAt (t : QuickSortRange) (pivotPos : Nat) : List Task :=
  let leftSize := pivotPos - t.first
  let rightSize := t.last - (pivotPos + 1)
  if leftSize = 0 then [⟨⟨pivotPos + 1, t.last, false⟩, true⟩]
  else if rightSize = 0 then [⟨{ t with last := pivotPos }, true⟩]
  else if rightSize < leftSize then
    [⟨⟨pivotPos + 1, t.last, false⟩, false⟩, ⟨{ t with last := pivotPos }, false⟩]
  else [⟨{ t with last := pivotPos }, false⟩, ⟨⟨pivotPos + 1, t.last, false⟩, false⟩]

/-- `split_unchecked` up to a recursive call: the sequence and the tasks that
replace the range. -/
inductive SplitUnchecked (comp : α → α → Bool) (a : Nat → α) (t : QuickSortRange) :
    (Nat → α) → List Task → Prop
  | equal {a' : Nat → α} {equalEnd : Nat}
      (heq : equalsPreviousPivot comp (placePivot comp a t) t = true)
      (hperm : PermOn (t.first + 1) t.last (placePivot comp a t) a')
      (hpart : PartitionedOn (fun x => !comp (placePivot comp a t t.first) x)
        (t.first + 1) equalEnd t.last a') :
      SplitUnchecked comp a t a' [⟨{ t with first := equalEnd }, true⟩]
  | less {a' : Nat → α} {it : Nat}
      (heq : equalsPreviousPivot comp (placePivot comp a t) t = false)
      (hperm : PermOn (t.first + 1) t.last (placePivot comp a t) a')
      (hpart : PartitionedOn (fun x => comp x (placePivot comp a t t.first))
        (t.first + 1) it t.last a') :
      SplitUnchecked comp a t (a' ∘ Equiv.swap t.first (pivotPosition t it))
        (splitAt t (pivotPosition t it))

/-- Where `parallel_sort` stands. -/
inductive Stage where
  | start
  /-- the chunks the pretest has not finished, and whether its context is cancelled -/
  | pretest (chunks : List (Nat × Nat)) (cancelled : Bool)
  | sorting (tasks : List Task)
  | returned

structure State (α : Type*) where
  data : Nat → α
  stage : Stage

/-- The tasks `do_parallel_quick_sort` starts with. -/
def initialTasks (n : Nat) : List Task := [⟨⟨0, n, true⟩, false⟩]

/-- What is left of a chunk after its first position has been checked. -/
def nextChunk (k last : Nat) : List (Nat × Nat) :=
  if k + 1 < last then [(k + 1, last)] else []

/-- A step of `parallel_sort` on a sequence of length `n`. -/
inductive Step (comp : α → α → Bool) (n : Nat) : State α → State α → Prop
  | empty {a} (h : n = 0) : Step comp n ⟨a, .start⟩ ⟨a, .returned⟩
  | stdSort {a a'} (h : 0 < n) (hn : n < minParallelSize) (hperm : PermOn 0 n a a')
      (hsort : SortedOn comp 0 n a') : Step comp n ⟨a, .start⟩ ⟨a', .returned⟩
  | unsorted {a k} (hn : minParallelSize ≤ n) (hk : k < serialCutoff)
      (h : comp (a (k + 1)) (a k) = true) :
      Step comp n ⟨a, .start⟩ ⟨a, .sorting (initialTasks n)⟩
  | pretest {a} (hn : minParallelSize ≤ n)
      (h : ∀ k, k < serialCutoff → comp (a (k + 1)) (a k) = false) :
      Step comp n ⟨a, .start⟩ ⟨a, .pretest [(serialCutoff + 1, n)] false⟩
  | splitChunk {a xs ys k last c} (mid : Nat) (h : k < mid) (h' : mid < last) :
      Step comp n ⟨a, .pretest (xs ++ (k, last) :: ys) c⟩
        ⟨a, .pretest (xs ++ [(k, mid), (mid, last)] ++ ys) c⟩
  | check {a xs ys k last c} (h : comp (a k) (a (k - 1)) = false) :
      Step comp n ⟨a, .pretest (xs ++ (k, last) :: ys) c⟩
        ⟨a, .pretest (xs ++ nextChunk k last ++ ys) c⟩
  | cancel {a xs ys k last c} (h : comp (a k) (a (k - 1)) = true) :
      Step comp n ⟨a, .pretest (xs ++ (k, last) :: ys) c⟩ ⟨a, .pretest (xs ++ ys) true⟩
  | skip {a xs ys k last} :
      Step comp n ⟨a, .pretest (xs ++ (k, last) :: ys) true⟩ ⟨a, .pretest (xs ++ ys) true⟩
  | sorted {a} : Step comp n ⟨a, .pretest [] false⟩ ⟨a, .returned⟩
  | reset {a} : Step comp n ⟨a, .pretest [] true⟩ ⟨a, .sorting (initialTasks n)⟩
  | split {a a' xs ys t b ts} (h : t.isDivisible = true) (hs : SplitUnchecked comp a t a' ts) :
      Step comp n ⟨a, .sorting (xs ++ ⟨t, b⟩ :: ys)⟩ ⟨a', .sorting (xs ++ ts ++ ys)⟩
  | tooSmall {a xs ys t} (h : t.isDivisible = false) :
      Step comp n ⟨a, .sorting (xs ++ ⟨t, true⟩ :: ys)⟩
        ⟨a, .sorting (xs ++ [⟨t, false⟩, ⟨⟨t.last, t.last, false⟩, false⟩] ++ ys)⟩
  | leafSort {a a' xs ys t} (hperm : PermOn t.first t.last a a')
      (hsort : SortedOn comp t.first t.last a') :
      Step comp n ⟨a, .sorting (xs ++ ⟨t, false⟩ :: ys)⟩ ⟨a', .sorting (xs ++ ys)⟩
  | done {a} : Step comp n ⟨a, .sorting []⟩ ⟨a, .returned⟩

end OneTbb.Sort
