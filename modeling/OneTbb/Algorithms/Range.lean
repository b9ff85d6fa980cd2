import Mathlib.Data.List.Basic

/-!
# Splittable ranges

The loop algorithms know a range through four operations: `empty`,
`is_divisible`, the copy constructor and the splitting constructor. The
splitting constructor shortens the range it is given to the first part and
builds the second part from the rest. A partitioner may pass a proportion to
it, which a range is free to ignore.
-/

namespace OneTbb.Algorithms

/-- The second argument of a splitting constructor. -/
inductive SplitObj where
  | split
  | proportionalSplit (left right : Nat)
  deriving DecidableEq, Repr

/-- A range together with the sequence of iterations it stands for. Splitting
a divisible range preserves the order of the iterations. -/
structure Range (R α : Type*) where
  empty : R → Bool
  isDivisible : R → Bool
  /-- The range after the split and the range built from its rest. -/
  split : SplitObj → R → R × R
  elems : R → List α
  elems_split : ∀ so r, isDivisible r = true →
    elems (split so r).1 ++ elems (split so r).2 = elems r
  elems_empty : ∀ r, empty r = true → elems r = []

/-- `range_pool_size` -/
def rangePoolSize : Nat := 8

/-- The lists of ranges that repeated splitting makes of one range, in order. -/
inductive Range.Tiles {R α : Type*} (rg : Range R α) (range : R) : List R → Prop
  | whole : Tiles rg range [range]
  | split (so : SplitObj) {before after : List R} {r : R}
      (h : Tiles rg range (before ++ r :: after)) (hr : rg.isDivisible r = true) :
      Tiles rg range (before ++ (rg.split so r).1 :: (rg.split so r).2 :: after)

/-- Tiles go through the iterations of the range once and in order. -/
theorem Range.Tiles.elems_eq {R α : Type*} {rg : Range R α} {range : R} {l : List R}
    (h : rg.Tiles range l) : l.flatMap rg.elems = rg.elems range := by
  induction h with
  | whole => exact List.flatMap_singleton rg.elems range
  | split so _ hr ih =>
    rw [← ih]
    simp only [List.flatMap_append, List.flatMap_cons]
    rw [← rg.elems_split so _ hr, List.append_assoc]

/-- Lists as ranges that are cut in the middle. -/
def listRange : Range (List Nat) Nat where
  empty r := r.isEmpty
  isDivisible r := decide (2 ≤ r.length)
  split _ r := (r.take (r.length / 2), r.drop (r.length / 2))
  elems r := r
  elems_split := fun _ r _ => List.take_append_drop _ r
  elems_empty := fun _ h => List.isEmpty_iff.mp h

end OneTbb.Algorithms
