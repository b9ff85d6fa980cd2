import Mathlib.Data.List.GetD
import OneTbb.Library.SplitTree

/-!
# Parallel iteration over the ordered containers

The ordered containers are skip lists. A node has a pointer to the next node on each level below
its height. A range is a pair of nodes with a level, and it is divided at the next node on that
level.
-/

namespace OneTbb.SkipList

open List

variable {α : Type*}

/-- The nodes of a `concurrent_skip_list` that does not change. -/
structure Nodes (α : Type*) where
  /-- the node after the head, on the lowest level -/
  first : Option Nat
  height : Nat → Nat
  /-- `next(level)` of a node -/
  next : Nat → Nat → Option Nat
  value : Nat → α

/-- The nodes are linked in the order of the list: on each level to the next one that is high
enough. -/
structure Nodes.Linked (s : Nodes α) (l : List Nat) : Prop where
  nodup : l.Nodup
  first : s.first = l.head?
  height_pos : ∀ x ∈ l, 0 < s.height x
  next : ∀ before x after, l = before ++ x :: after → ∀ level < s.height x,
    s.next x level = after.find? fun y => decide (level < s.height y)

/-- `const_range_type`. A null pointer is `none`. -/
structure ConstRange where
  myEnd : Option Nat
  myBegin : Option Nat
  myLevel : Nat
  deriving DecidableEq, Repr

namespace ConstRange

/-- The height of the node at which a range begins. A null pointer has none; no split gets one. -/
def heightAt (s : Nodes α) (p : Option Nat) : Nat := (p.map s.height).getD 0

/-- `range()` -/
def range (s : Nodes α) : ConstRange := ⟨none, s.first, heightAt s s.first⟩

/-- `empty` -/
def empty (s : Nodes α) (r : ConstRange) : Bool :=
  match r.myBegin with
  | some x => decide (s.next x 0 = r.myEnd)
  | none => true

/-- `is_divisible` -/
def isDivisible (s : Nodes α) (r : ConstRange) : Bool :=
  match r.myBegin with
  | some x => r.myLevel != 0 && decide (s.next x (r.myLevel - 1) ≠ r.myEnd)
  | none => false

/-- The splitting constructor: the range after it, and the new one. -/
def split (s : Nodes α) (r : ConstRange) : ConstRange × ConstRange :=
  if r.empty s then (r, ⟨r.myEnd, r.myEnd, 0⟩)
  else
    let mid := r.myBegin.bind fun x => s.next x (r.myLevel - 1)
    ({ r with myEnd := mid }, ⟨r.myEnd, mid, heightAt s mid⟩)

/-- What an iteration from one pointer to another visits, unless it comes to a null pointer. -/
def iterate (s : Nodes α) : Nat → Option Nat → Option Nat → Option (List α)
  | 0, p, last => if p = last then some [] else none
  | fuel + 1, p, last =>
    if p = last then some []
    else
      match p with
      | none => none
      | some x => (iterate s fuel (s.next x 0) last).map (s.value x :: ·)

/-- What a body visits that goes from `begin` to `end`. -/
def elems (s : Nodes α) (fuel : Nat) (r : ConstRange) : List α :=
  (iterate s fuel r.myBegin r.myEnd).getD []

end ConstRange

/-- `start_for::run` with a tree of splits, and a body that goes through its range. -/
def parallelFor (s : Nodes α) (fuel : Nat) (tree : SplitTree) : List α :=
  if (ConstRange.range s).empty s then []
  else (tree.leaves (ConstRange.split s) (ConstRange.range s)).flatMap (ConstRange.elems s fuel)

namespace ConstRange

variable {s : Nodes α} {l : List Nat} {r : ConstRange}

/-- The range covers a segment of the list. It can only be divided if it goes to the end and its
level is the height of its first node. -/
structure Covers (s : Nodes α) (l : List Nat) (r : ConstRange) (part after : List Nat) : Prop where
  segment : ∃ before, l = before ++ (part ++ after)
  myBegin : r.myBegin = (part ++ after).head?
  myEnd : r.myEnd = after.head?
  divisible : r.isDivisible s = true → after = [] ∧ r.myLevel = heightAt s r.myBegin

variable {part after : List Nat}

/-- On the lowest level the next node is the next one of the list. -/
theorem next_zero (h : s.Linked l) {before after : List Nat} {x : Nat}
    (hl : l = before ++ x :: after) : s.next x 0 = after.head? := by
  rw [h.next before x after hl 0 (h.height_pos x (by simp [hl]))]
  cases after with
  | nil => rfl
  | cons y rest =>
    rw [List.find?_cons_of_pos]
    · rfl
    · simpa using h.height_pos y (by simp [hl])

theorem head_ne (h : s.Linked l) {before after : List Nat} {x : Nat}
    (hl : l = before ++ x :: (part ++ after)) : some x ≠ after.head? := by
  intro heq
  obtain ⟨rest, rfl⟩ : ∃ rest, after = x :: rest := by
    cases after with
    | nil => cases heq
    | cons y rest => exact ⟨rest, by rw [Option.some.inj heq]⟩
  have hnodup := h.nodup
  rw [hl, nodup_append] at hnodup
  exact (nodup_cons.mp hnodup.2.1).1 (by simp)

theorem iterate_eq (h : s.Linked l) {before after : List Nat} {fuel : Nat}
    (hl : l = before ++ (part ++ after)) (hfuel : part.length ≤ fuel) :
    iterate s fuel (part ++ after).head? after.head? = some (part.map s.value) := by
  induction part generalizing before fuel with
  | nil => cases fuel <;> simp [iterate]
  | cons x rest ih =>
    cases fuel with
    | zero => cases hfuel
    | succ fuel =>
      have hnext : s.next x 0 = (rest ++ after).head? := next_zero h hl
      have hrest : l = (before ++ [x]) ++ (rest ++ after) := by simp [hl]
      have htail := ih hrest (Nat.le_of_succ_le_succ hfuel)
      calc
        iterate s (fuel + 1) (some x) after.head? =
            (iterate s fuel (s.next x 0) after.head?).map (s.value x :: ·) :=
          if_neg (head_ne h hl)
        _ = some ((x :: rest).map s.value) := by
          rw [hnext, htail]
          rfl

section

variable (hr : r.Covers s l part after) (h : s.Linked l)
include hr h

theorem Covers.iterate :
    ConstRange.iterate s l.length r.myBegin r.myEnd = some (part.map s.value) := by
  obtain ⟨before, hl⟩ := hr.segment
  rw [hr.myBegin, hr.myEnd]
  apply iterate_eq h hl
  rw [hl, length_append, length_append]
  omega

theorem Covers.elems_eq :
    r.elems s l.length = part.map s.value := by
  rw [elems, hr.iterate h, Option.getD_some]

theorem Covers.empty_iff
    (hafter : part = [] → after = []) : r.empty s = true ↔ part.length ≤ 1 := by
  obtain ⟨before, hl⟩ := hr.segment
  have hbegin := hr.myBegin
  cases part with
  | nil =>
    rw [hafter rfl] at hbegin
    simp [empty, hbegin]
  | cons x rest =>
    have hnext := next_zero h hl
    rw [empty, hbegin, hr.myEnd]
    simp only [cons_append, List.head?_cons, decide_eq_true_iff, hnext]
    cases rest with
    | nil => simp
    | cons y rest =>
      have hrest : l = (before ++ [x]) ++ y :: (rest ++ after) := by simp [hl]
      have hne : some y ≠ after.head? := head_ne h hrest
      simp [hne]

end

theorem covers_range (h : s.Linked l) : (range s).Covers s l l [] := by
  refine ⟨⟨[], by simp⟩, ?_, rfl, ?_⟩
  · rw [append_nil]
    exact h.first
  · exact fun _ => ⟨rfl, rfl⟩

/-- A divisible range is cut at a node inside. The first part cannot be divided again. -/
theorem Covers.split (hr : r.Covers s l part after) (h : s.Linked l)
    (hdiv : r.isDivisible s = true) :
    ∃ first second, part = first ++ second ∧ first ≠ [] ∧ second ≠ [] ∧
      (r.split s).1.Covers s l first second ∧ (r.split s).2.Covers s l second [] := by
  obtain ⟨rfl, hlevel⟩ := hr.divisible hdiv
  obtain ⟨before, hl⟩ := hr.segment
  have hbegin := hr.myBegin
  have hend := hr.myEnd
  rw [append_nil] at hbegin hl
  rw [List.head?_nil] at hend
  cases part with
  | nil => simp [isDivisible, hbegin] at hdiv
  | cons x rest =>
    rw [List.head?_cons] at hbegin
    have hpos := h.height_pos x (by simp [hl])
    have hheight : r.myLevel = s.height x := by
      rw [hlevel, hbegin]
      rfl
    have hnext := h.next before x rest hl (s.height x - 1) (by omega)
    -- there is a node at least as high, or the range would not be divisible
    have hmid : s.next x (s.height x - 1) ≠ none := by
      simpa [isDivisible, hbegin, hheight, hend, Nat.ne_of_gt hpos] using hdiv
    obtain ⟨m, hm⟩ := Option.ne_none_iff_exists'.mp hmid
    rw [hm] at hnext
    obtain ⟨-, low, high, rfl, -⟩ := List.find?_eq_some_iff_append.mp hnext.symm
    have hnonempty : r.empty s = false := by
      rw [Bool.eq_false_iff]
      intro hempty
      have := (hr.empty_iff h (by simp)).mp hempty
      simp at this
    have hsplit : r.split s = (⟨some m, some x, s.height x⟩, ⟨none, some m, s.height m⟩) := by
      obtain ⟨myEnd, myBegin, myLevel⟩ := r
      simp only at hbegin hend hheight
      subst hbegin hend hheight
      simp [ConstRange.split, hnonempty, hm, heightAt]
    refine ⟨x :: low, m :: high, rfl, by simp, by simp, ?_, ?_⟩ <;> rw [hsplit]
    · refine ⟨⟨before, hl⟩, rfl, rfl, ?_⟩
      intro hagain
      simp [isDivisible, hm] at hagain
    · exact ⟨⟨before ++ (x :: low), by simp [hl]⟩, by simp, rfl, fun _ => ⟨rfl, rfl⟩⟩

/-- What holds of every range that splitting makes. -/
def Ok (s : Nodes α) (l : List Nat) (r : ConstRange) : Prop :=
  ∃ part after, r.Covers s l part after ∧ (part = [] → l = [])

theorem ok_range (h : s.Linked l) : Ok s l (range s) := ⟨l, [], covers_range h, id⟩

theorem Ok.split (hr : Ok s l r) (h : s.Linked l) (hdiv : r.isDivisible s = true) :
    Ok s l (r.split s).1 ∧ Ok s l (r.split s).2 := by
  obtain ⟨part, after, hcovers, -⟩ := hr
  obtain ⟨first, second, -, hfirst, hsecond, hleft, hright⟩ := hcovers.split h hdiv
  exact ⟨⟨first, second, hleft, fun hnil => absurd hnil hfirst⟩,
    ⟨second, [], hright, fun hnil => absurd hnil hsecond⟩⟩

/-- A split divides the elements of a range in order. -/
theorem Ok.elems_split (hr : Ok s l r) (h : s.Linked l) (hdiv : r.isDivisible s = true) :
    r.elems s l.length = (r.split s).1.elems s l.length ++ (r.split s).2.elems s l.length := by
  obtain ⟨part, after, hcovers, -⟩ := hr
  obtain ⟨first, second, rfl, -, -, hleft, hright⟩ := hcovers.split h hdiv
  rw [hcovers.elems_eq h, hleft.elems_eq h, hright.elems_eq h, map_append]

theorem flatMap_elems_leaves (h : s.Linked l) {tree : SplitTree}
    (hvalid : tree.Valid (isDivisible s) (ConstRange.split s) (range s)) :
    (tree.leaves (ConstRange.split s) (range s)).flatMap (elems s l.length) = l.map s.value := by
  rw [SplitTree.flatMap_leaves (fun _ hr => Ok.split hr h) (fun _ hr => hr.elems_split h)
    (ok_range h) hvalid]
  exact (covers_range h).elems_eq h

/-- A range that has an element says that it is empty exactly if it has no other. -/
theorem Ok.empty_iff (hr : Ok s l r) (h : s.Linked l) :
    r.empty s = true ↔ (r.elems s l.length).length ≤ 1 := by
  obtain ⟨part, after, hcovers, hnil⟩ := hr
  rw [hcovers.elems_eq h, length_map]
  apply hcovers.empty_iff h
  intro hpart
  obtain ⟨before, hl⟩ := hcovers.segment
  rw [hnil hpart] at hl
  have hnil := append_eq_nil_iff.mp hl.symm
  exact (append_eq_nil_iff.mp hnil.2).2

theorem Ok.iterate (hr : Ok s l r) (h : s.Linked l) :
    ConstRange.iterate s l.length r.myBegin r.myEnd = some (r.elems s l.length) := by
  obtain ⟨part, after, hcovers, -⟩ := hr
  rw [hcovers.iterate h, hcovers.elems_eq h]

theorem Ok.elems_ne_nil (hr : Ok s l r) (h : s.Linked l) (hl : l ≠ []) :
    r.elems s l.length ≠ [] := by
  obtain ⟨part, after, hcovers, hnil⟩ := hr
  rw [hcovers.elems_eq h, ne_eq, map_eq_nil_iff]
  exact fun hpart => hl (hnil hpart)

end ConstRange

open ConstRange in
/-- The ranges that splitting makes of the range of a container go through its elements in order,
each exactly once. A range with an element says that it is empty exactly if it has no other
element, so `parallel_for` visits the elements exactly if there is not just one. -/
theorem skipList_range_tiles (s : Nodes α) (l : List Nat) (h : s.Linked l) (tree : SplitTree)
    (hvalid : tree.Valid (isDivisible s) (ConstRange.split s) (range s)) :
    (tree.leaves (ConstRange.split s) (range s)).flatMap (elems s l.length) = l.map s.value ∧
    (∀ part ∈ tree.parts (ConstRange.split s) (range s),
      iterate s l.length part.2.myBegin part.2.myEnd = some (part.2.elems s l.length) ∧
      (l ≠ [] → part.2.elems s l.length ≠ []) ∧
      (part.2.empty s = true ↔ (part.2.elems s l.length).length ≤ 1)) ∧
    (parallelFor s l.length tree = l.map s.value ↔ l.length ≠ 1) := by
  refine ⟨flatMap_elems_leaves h hvalid, ?_, ?_⟩
  · intro part hmem
    obtain ⟨hok, -⟩ := SplitTree.inv_of_mem_parts (P := Ok s l) (fun _ hr => Ok.split hr h)
      (ok_range h) hvalid hmem
    exact ⟨hok.iterate h, hok.elems_ne_nil h, hok.empty_iff h⟩
  · have hempty := (covers_range h).empty_iff h fun _ => rfl
    rw [parallelFor, flatMap_elems_leaves h hvalid]
    split
    case isTrue hyes =>
      have hle := hempty.mp hyes
      constructor
      · intro heq hone
        have hlength := congrArg List.length heq
        rw [length_map, hone] at hlength
        cases hlength
      · intro hne
        have hzero : l.length = 0 := by omega
        rw [length_eq_zero_iff.mp hzero, map_nil]
    case isFalse hno =>
      refine ⟨fun _ hone => hno (hempty.mpr (Nat.le_of_eq hone)), fun _ => rfl⟩

/-- Nodes with the heights of a list, linked in the order of their positions. -/
def ofHeights (heights : List Nat) : Nodes Nat where
  first := (List.range heights.length).head?
  height x := heights.getD x 0
  next x level := ((List.range heights.length).drop (x + 1)).find?
    fun y => decide (level < heights.getD y 0)
  value := id

theorem ofHeights_linked {heights : List Nat} (hpos : ∀ h ∈ heights, 0 < h) :
    (ofHeights heights).Linked (List.range heights.length) := by
  refine ⟨nodup_range, rfl, ?_, ?_⟩
  · intro x hx
    have hlt := mem_range.mp hx
    show 0 < heights.getD x 0
    rw [getD_eq_getElem _ _ hlt]
    exact hpos _ (getElem_mem hlt)
  · intro before x after hl level _
    have hlength : x = before.length := by
      have hget : (List.range heights.length)[before.length]? = some x := by
        rw [hl]
        simp
      obtain ⟨_, heq⟩ := List.getElem?_eq_some_iff.mp hget
      rw [getElem_range] at heq
      exact heq.symm
    show ((List.range heights.length).drop (x + 1)).find? _ = _
    rw [hl, hlength, ← singleton_append, ← append_assoc,
      drop_left' (by simp)]
    rfl

open ConstRange in
/-- Three elements of which the last is higher than the others, divided once. -/
theorem skipList_range_tiles_three :
    SplitTree.Valid (isDivisible (ofHeights [2, 1, 2])) (ConstRange.split (ofHeights [2, 1, 2]))
        (.node .leaf .leaf) (range (ofHeights [2, 1, 2])) ∧
      parallelFor (ofHeights [2, 1, 2]) 3 (.node .leaf .leaf) = [0, 1, 2] := by
  have hvalid : SplitTree.Valid (isDivisible (ofHeights [2, 1, 2]))
      (ConstRange.split (ofHeights [2, 1, 2])) (.node .leaf .leaf)
        (range (ofHeights [2, 1, 2])) := ⟨by decide, trivial, trivial⟩
  exact ⟨hvalid, (skipList_range_tiles (ofHeights [2, 1, 2]) _ (ofHeights_linked (by decide))
    (.node .leaf .leaf) hvalid).2.2.mpr (by decide)⟩

open ConstRange in
/-- A container with one element has a range that says that it is empty, and `parallel_for` visits
nothing. -/
theorem not_skipList_range_tiles :
    (ofHeights [1]).Linked [0] ∧ (range (ofHeights [1])).elems (ofHeights [1]) 1 = [0] ∧
      (range (ofHeights [1])).empty (ofHeights [1]) = true ∧
      ∀ tree, parallelFor (ofHeights [1]) 1 tree = [] := by
  refine ⟨ofHeights_linked (by decide), by decide, by decide, ?_⟩
  intro tree
  rw [parallelFor, if_pos (by decide)]

end OneTbb.SkipList
