import OneTbb.FlowGraph.ItemBuffer

/-!
# `item_buffer` as a queue

The nodes that only push at the back and pop at the front see the buffer as a list.
-/

namespace OneTbb.FlowGraph.ItemBuffer

open Function List

variable {α : Type*} {W : SizeType} {b : ItemBuffer α} {q : List α} {x : α}

/-- `buffer_empty` -/
def bufferEmpty (b : ItemBuffer α) : Bool := b.head = b.tail

/-- `front` -/
def front (b : ItemBuffer α) : Option α := (b.element b.head).item

/-- The items from the head on. -/
def contents (b : ItemBuffer α) : List α :=
  (range' b.head (b.tail - b.head)).filterMap fun i => (b.element i).item

/-- The slots of a queue whose first item is at the head. -/
def queueSlots (head : Nat) (q : List α) (i : Nat) : Slot α :=
  if i < head then .noItem
  else
    match q[i - head]? with
    | none => .noItem
    | some x => .hasItem x

theorem queueSlots_add (head i : Nat) (q : List α) :
    (queueSlots head q (head + i)).item = q[i]? := by
  unfold queueSlots
  rw [if_neg (by omega), Nat.add_sub_cancel_left]
  cases q[i]? <;> rfl

/-- The buffer is a queue of the items. -/
structure Contains (W : SizeType) (b : ItemBuffer α) (q : List α) : Prop where
  represents : Represents W b (queueSlots b.head q)
  tail_eq : b.tail = b.head + q.length

theorem Contains.initial : Contains W (initial : ItemBuffer α) [] where
  represents := by
    have hslots : queueSlots (ItemBuffer.initial : ItemBuffer α).head ([] : List α) =
        fun _ => .noItem := by
      funext i
      simp [queueSlots]
    rw [hslots]
    exact Represents.initial
  tail_eq := rfl

theorem Contains.element_eq (h : Contains W b q) {i : Nat} (hi : i < q.length) :
    (b.element (b.head + i)).item = some q[i] := by
  have htail := h.tail_eq
  have hroom := h.represents.tail_le
  rw [h.represents.element_eq (Nat.le_add_right _ _) (by omega), queueSlots_add,
    getElem?_eq_getElem hi]

theorem Contains.bufferEmpty_iff (h : Contains W b q) : b.bufferEmpty = true ↔ q = [] := by
  have htail := h.tail_eq
  rw [bufferEmpty, decide_eq_true_iff, ← length_eq_zero_iff]
  omega

theorem Contains.front_cons (h : Contains W b (x :: q)) : b.front = some x :=
  h.element_eq (i := 0) (Nat.succ_pos _)

theorem Contains.itemValid_iff (h : Contains W b q) : b.itemValid b.head = true ↔ q ≠ [] := by
  rw [h.represents.itemValid_iff]
  cases q with
  | nil | cons x rest => simp [queueSlots]

theorem Contains.contents_eq (h : Contains W b q) : b.contents = q := by
  have hget : ∀ i ∈ range q.length, (b.element (b.head + i)).item = q[i]? := by
    intro i hi
    rw [mem_range] at hi
    rw [h.element_eq hi, getElem?_eq_getElem hi]
  rw [contents, h.tail_eq, Nat.add_sub_cancel_left, range'_eq_map_range, filterMap_map]
  calc List.filterMap (fun i => (b.element (b.head + i)).item) (range q.length)
      = List.filterMap (fun i => q[i]?) (range q.length) := filterMap_congr hget
    _ = q := by
      clear hget h
      induction q with
      | nil => rfl
      | cons x rest ih =>
        rw [length_cons, range_succ_eq_map, filterMap_cons, filterMap_map]
        exact congrArg (x :: ·) ih

theorem Contains.destroyFront (h : Contains W b (x :: q)) :
    Contains W (b.destroyFront W) q := by
  have htail := h.tail_eq
  rw [length_cons] at htail
  have hhead : (b.destroyFront W).head = b.head + 1 := by
    rw [h.represents.destroyFront_eq (by omega)]
  constructor
  case represents =>
    have hslots : update (queueSlots b.head (x :: q)) b.head .noItem =
        queueSlots (b.head + 1) q := by
      funext i
      rcases Nat.lt_trichotomy i b.head with hlt | rfl | hgt
      · rw [update_of_ne (by omega), queueSlots, queueSlots, if_pos hlt,
          if_pos (by omega)]
      · rw [update_self, queueSlots, if_pos (Nat.lt_succ_self _)]
      · obtain ⟨k, rfl⟩ : ∃ k, i = b.head + 1 + k := ⟨i - (b.head + 1), by omega⟩
        rw [update_of_ne (by omega), queueSlots, queueSlots, if_neg (by omega),
          if_neg (by omega), show b.head + 1 + k - b.head = k + 1 by omega,
          Nat.add_sub_cancel_left, getElem?_cons_succ]
    have hdestroy := h.represents.destroyFront (by omega)
    rwa [hslots, ← hhead] at hdestroy
  case tail_eq =>
    rw [hhead]
    change b.tail = b.head + 1 + q.length
    omega

theorem Contains.pushBack (h : Contains W b q) (hword : b.tail + 1 < 2 ^ W.bits)
    {b' : ItemBuffer α} (hb' : b.pushBack W x = some b') :
    Contains W b' (q ++ [x]) ∧ b'.tail = b.tail + 1 := by
  have htail := h.tail_eq
  have hroom := h.represents.tail_le
  obtain ⟨grown, hgrown, rfl⟩ := Option.map_eq_some_iff.mp hb'
  rw [size_of_le h.represents.head_le h.represents.tail_lt] at hgrown
  obtain ⟨hrep, hhead, htail', hfree⟩ :=
    h.represents.grow_append (by intro hfull; omega) (by intro hfull; omega) hgrown
  have hslots : update (queueSlots b.head q) grown.tail (.hasItem x) =
      queueSlots b.head (q ++ [x]) := by
    funext i
    rw [htail', htail]
    rcases Nat.lt_trichotomy i (b.head + q.length) with hlt | rfl | hgt
    · rw [update_of_ne (by omega), queueSlots, queueSlots]
      split
      case isTrue => rfl
      case isFalse hge => rw [getElem?_append_left (by omega)]
    · rw [update_self, queueSlots, if_neg (by omega), Nat.add_sub_cancel_left,
        getElem?_concat_length]
    · rw [update_of_ne (by omega), queueSlots, queueSlots, if_neg (by omega),
        if_neg (by omega), getElem?_eq_none (by omega),
        getElem?_eq_none (by simp only [length_append, length_singleton]; omega)]
  have hnext : (grown.tail + 1) % 2 ^ W.bits = b.tail + 1 := by
    rw [htail']
    exact Nat.mod_eq_of_lt hword
  refine ⟨⟨?_, ?_⟩, hnext⟩
  · have happend := hrep.append hfree (by omega) x
    rw [hslots, ← hhead] at happend
    exact happend
  · change (grown.tail + 1) % 2 ^ W.bits = grown.head + (q ++ [x]).length
    rw [length_append, length_singleton, hnext]
    omega

end OneTbb.FlowGraph.ItemBuffer
