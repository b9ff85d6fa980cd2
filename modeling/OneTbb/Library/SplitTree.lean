import Mathlib.Data.List.Basic

/-!
# Trees of splits

A thing that can be split leaves two parts, and each part may be split again. A tree says which
of the parts are split. Its leaves are the parts that are left at the end.
-/

namespace OneTbb

open List

/-- A tree of splits: the first part is on the left. -/
inductive SplitTree where
  | leaf
  | node (left right : SplitTree)
  deriving DecidableEq, Repr

variable {tree : SplitTree}

namespace SplitTree

variable {R α : Type*}

/-- Every split of the tree is made on a divisible part. -/
def Valid (divisible : R → Bool) (split : R → R × R) : SplitTree → R → Prop
  | .leaf, _ => True
  | .node left right, r => divisible r = true ∧
      left.Valid divisible split (split r).1 ∧ right.Valid divisible split (split r).2

/-- The parts that are not split, from left to right. -/
def leaves (split : R → R × R) : SplitTree → R → List R
  | .leaf, r => [r]
  | .node left right, r => left.leaves split (split r).1 ++ right.leaves split (split r).2

/-- All parts of the tree, as they are before they are split, with what becomes of each. -/
def parts (split : R → R × R) : SplitTree → R → List (SplitTree × R)
  | .leaf, r => [(.leaf, r)]
  | .node left right, r => (.node left right, r) ::
      (left.parts split (split r).1 ++ right.parts split (split r).2)

theorem mem_parts_of_mem_leaves {split : R → R × R} {r q : R}
    (hmem : q ∈ tree.leaves split r) : (.leaf, q) ∈ tree.parts split r := by
  induction tree generalizing r with
  | leaf =>
    obtain rfl := mem_singleton.mp hmem
    exact mem_singleton.mpr rfl
  | node left right ihleft ihright =>
    apply mem_cons_of_mem
    rcases mem_append.mp hmem with hmem | hmem
    · exact mem_append_left _ (ihleft hmem)
    · exact mem_append_right _ (ihright hmem)

/-- If every leaf has an element, there are not more leaves than elements. -/
theorem length_leaves_le {split : R → R × R} {r : R} {elems : R → List α}
    (h : ∀ q ∈ tree.leaves split r, elems q ≠ []) :
    (tree.leaves split r).length ≤ ((tree.leaves split r).flatMap elems).length := by
  generalize tree.leaves split r = l at h
  induction l with
  | nil => exact Nat.le_refl _
  | cons q rest ih =>
    have hpos := length_pos_iff.mpr (h q mem_cons_self)
    have hrest := ih fun q' hq' => h q' (mem_cons_of_mem _ hq')
    rw [length_cons, flatMap_cons, length_append]
    omega

section Invariant

variable {divisible : R → Bool} {split : R → R × R} {P : R → Prop}
  (hsplit : ∀ r, P r → divisible r = true → P (split r).1 ∧ P (split r).2)

include hsplit

/-- What every split keeps holds of all parts, and the tree below each is valid. -/
theorem inv_of_mem_parts {r : R} (h : P r)
    (hvalid : tree.Valid divisible split r) {part : SplitTree × R}
    (hmem : part ∈ tree.parts split r) : P part.2 ∧ part.1.Valid divisible split part.2 := by
  induction tree generalizing r with
  | leaf =>
    obtain rfl := mem_singleton.mp hmem
    exact ⟨h, hvalid⟩
  | node left right ihleft ihright =>
    rcases mem_cons.mp hmem with rfl | hmem
    · exact ⟨h, hvalid⟩
    · obtain ⟨hdiv, hleft, hright⟩ := hvalid
      obtain ⟨hfirst, hsecond⟩ := hsplit r h hdiv
      rcases mem_append.mp hmem with hmem | hmem
      · exact ihleft hfirst hleft hmem
      · exact ihright hsecond hright hmem

theorem inv_of_mem_leaves {r q : R} (h : P r)
    (hvalid : tree.Valid divisible split r) (hmem : q ∈ tree.leaves split r) : P q :=
  (inv_of_mem_parts hsplit h hvalid (mem_parts_of_mem_leaves hmem)).1

/-- If each split divides the elements of a part in order, the leaves have them all in order. -/
theorem flatMap_leaves {elems : R → List α}
    (helems : ∀ r, P r → divisible r = true →
      elems r = elems (split r).1 ++ elems (split r).2) {r : R} (h : P r) (hvalid : tree.Valid divisible split r) :
    (tree.leaves split r).flatMap elems = elems r := by
  induction tree generalizing r with
  | leaf => exact flatMap_singleton _ _
  | node left right ihleft ihright =>
    obtain ⟨hdiv, hleft, hright⟩ := hvalid
    obtain ⟨hfirst, hsecond⟩ := hsplit r h hdiv
    rw [leaves, flatMap_append, ihleft hfirst hleft, ihright hsecond hright,
      helems r h hdiv]

/-- If splits make a measure smaller, everything can be split to the end. -/
theorem exists_full {measure : R → Nat}
    (hmeasure : ∀ r, P r → divisible r = true →
      measure (split r).1 < measure r ∧ measure (split r).2 < measure r)
    {r : R} (h : P r) : ∃ tree : SplitTree, tree.Valid divisible split r ∧
      ∀ q ∈ tree.leaves split r, divisible q = false := by
  generalize hn : measure r = n
  induction n using Nat.strongRecOn generalizing r with
  | ind n ih =>
    cases hdiv : divisible r with
    | false =>
      refine ⟨.leaf, trivial, ?_⟩
      intro q hq
      rw [mem_singleton.mp hq, hdiv]
    | true =>
      obtain ⟨hfirst, hsecond⟩ := hsplit r h hdiv
      obtain ⟨hlt, hlt'⟩ := hmeasure r h hdiv
      obtain ⟨left, hleft, hleftfull⟩ := ih _ (hn ▸ hlt) hfirst rfl
      obtain ⟨right, hright, hrightfull⟩ := ih _ (hn ▸ hlt') hsecond rfl
      refine ⟨.node left right, ⟨hdiv, hleft, hright⟩, ?_⟩
      intro q hq
      rcases mem_append.mp hq with hq | hq
      · exact hleftfull q hq
      · exact hrightfull q hq

end Invariant

end SplitTree

end OneTbb
