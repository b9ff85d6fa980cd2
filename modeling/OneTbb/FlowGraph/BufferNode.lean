import OneTbb.FlowGraph.ItemBuffer
import OneTbb.Library.Transition

/-!
# The buffering nodes

`buffer_node` takes items from the back of its buffer, `queue_node` and
`sequencer_node` from the front, and `priority_queue_node` keeps a heap in it. All
of them handle the operations of an aggregator one after the other.
-/

namespace OneTbb.FlowGraph

open Function Option List

variable {α : Type*}

namespace ItemBuffer

/-- `place_item`, with whether the slot was free -/
def placeItem (b : ItemBuffer α) (i : Nat) (x : α) : Bool × ItemBuffer α :=
  if b.itemValid i then (false, b) else (true, b.setMyItem i x)

/-- `move_item` -/
def moveItem (b : ItemBuffer α) (target source : Nat) : ItemBuffer α :=
  match (b.element source).item with
  | none => b
  | some x => (b.setMyItem target x).destroyItem source

/-- `swap_items` -/
def swapItems (b : ItemBuffer α) (i j : Nat) : ItemBuffer α :=
  match (b.element i).item, (b.element j).item with
  | some x, some y => (b.setMyItem i y).setMyItem j x
  | _, _ => b

/-- Compares two items of the buffer. -/
def compareItems (compare : α → α → Bool) (b : ItemBuffer α) (i j : Nat) : Bool :=
  match (b.element i).item, (b.element j).item with
  | some x, some y => compare x y
  | _, _ => false

/-- `sequencer_node::internal_push`, after the tag is computed -/
def sequence (W : SizeType) (b : ItemBuffer α) (tag : Nat) (x : α) :
    Option (Bool × ItemBuffer α) :=
  if tag < b.head then some (false, b)
  else
    let newTail := max ((tag + 1) % 2 ^ W.bits) b.tail
    (if b.arraySize < b.size W newTail then b.growMyArray W (b.size W newTail)
      else some b).map fun b => { b with tail := newTail }.placeItem tag x

variable {W : SizeType} {b : ItemBuffer α} {slots : Nat → Slot α}

/-- A message whose tag the ring can reach is stored, unless its slot is taken. -/
theorem Represents.sequence (h : Represents W b slots) {tag : Nat} {x : α}
    (htag : tag + 1 < 2 ^ W.bits) (hlow : b.head ≤ tag) (hfit : tag + 1 ≤ b.head + W.maxArray) :
    ∃ b', b'.head = b.head ∧
      (slots tag = .noItem → b.sequence W tag x = some (true, b') ∧
        Represents W b' (update slots tag (.hasItem x))) ∧
      (slots tag ≠ .noItem → b.sequence W tag x = some (false, b') ∧
        Represents W b' slots) := by
  have htail := h.tail_le
  have hhead := h.head_le
  have hword : max (tag + 1) b.tail < 2 ^ W.bits := max_lt htag h.tail_lt
  -- the ring grows, if it is too small
  have hgrown : ∃ b₁, (if b.arraySize < max (tag + 1) b.tail - b.head then
        b.growMyArray W (max (tag + 1) b.tail - b.head) else some b) = some b₁ ∧
      Represents W b₁ slots ∧ b₁.head = b.head ∧ b₁.tail = b.tail ∧
      max (tag + 1) b.tail ≤ b₁.head + b₁.arraySize := by
    split
    case isFalse => exact ⟨b, rfl, h, rfl, rfl, by omega⟩
    case isTrue hsmall =>
      have hgrow := h.growMyArray hsmall
      rw [if_pos (by omega)] at hgrow
      obtain ⟨b₁, heq, hrep, hhead, htail₁, hbig⟩ := hgrow
      exact ⟨b₁, heq, hrep, hhead, htail₁, by omega⟩
  obtain ⟨b₁, heq, hrep, hhead, htail₁, hroom⟩ := hgrown
  have hextend : Represents W { b₁ with tail := max (tag + 1) b.tail } slots :=
    hrep.extend (by omega) hroom hword
  have hvalid := hextend.itemValid_iff tag
  have hsequence : b.sequence W tag x =
      some ({ b₁ with tail := max (tag + 1) b.tail }.placeItem tag x) := by
    unfold ItemBuffer.sequence
    simp only [if_neg (Nat.not_lt_of_le hlow), Nat.mod_eq_of_lt htag,
      size_of_le (show b.head ≤ max (tag + 1) b.tail by omega) hword, heq, map_some]
  rw [hsequence]
  by_cases hslot : slots tag = .noItem
  · have hset := hextend.setSlot (i := tag) (show b₁.head ≤ tag by omega)
      (show tag < max (tag + 1) b.tail by omega) (.hasItem x)
    have hplace : { b₁ with tail := max (tag + 1) b.tail }.placeItem tag x =
        (true, { b₁ with tail := max (tag + 1) b.tail }.setMyItem tag x) :=
      if_neg fun hv => hvalid.mp hv hslot
    exact ⟨{ b₁ with tail := max (tag + 1) b.tail }.setMyItem tag x, hhead,
      fun _ => ⟨congrArg some hplace, hset⟩, fun hne => absurd hslot hne⟩
  · have hplace : { b₁ with tail := max (tag + 1) b.tail }.placeItem tag x =
        (false, { b₁ with tail := max (tag + 1) b.tail }) := if_pos (hvalid.mpr hslot)
    exact ⟨{ b₁ with tail := max (tag + 1) b.tail }, hhead, fun he => absurd he hslot,
      fun _ => ⟨congrArg some hplace, hextend⟩⟩

/-- A message whose tag no ring can reach is the last one the node handles. -/
theorem Represents.sequence_eq_none (h : Represents W b slots) {tag : Nat} {x : α}
    (htag : tag + 1 < 2 ^ W.bits) (hfar : b.head + W.maxArray < tag + 1) :
    b.sequence W tag x = none := by
  obtain ⟨k, -, hsize, hmax⟩ := h.size_eq
  have hsmall : b.arraySize < max (tag + 1) b.tail - b.head := by omega
  have hgrow := h.growMyArray hsmall
  rw [if_neg (by omega)] at hgrow
  unfold ItemBuffer.sequence
  simp only [if_neg (show ¬ tag < b.head by omega), Nat.mod_eq_of_lt htag,
    size_of_le (show b.head ≤ max (tag + 1) b.tail by omega) (max_lt htag h.tail_lt),
    if_pos hsmall, hgrow, map_none]

end ItemBuffer

/-! ## The heap of `priority_queue_node` -/

namespace Priority

variable (compare : α → α → Bool)

/-- `prio_use_tail` -/
def prioUseTail (b : ItemBuffer α) (mark : Nat) : Bool :=
  mark < b.tail && b.compareItems compare 0 (b.tail - 1)

/-- The position of the item `prio` returns. -/
def prioIndex (b : ItemBuffer α) (mark : Nat) : Nat :=
  if prioUseTail compare b mark then b.tail - 1 else 0

/-- `prio_push` -/
def prioPush (W : SizeType) (b : ItemBuffer α) (x : α) : Option (ItemBuffer α) :=
  (if b.arraySize ≤ b.tail then b.growMyArray W (b.tail + 1) else some b).map fun b =>
    { (b.placeItem b.tail x).2 with tail := (b.tail + 1) % 2 ^ W.bits }

/-- The loop of `reheap`, from a position and with some fuel -/
def reheapLoop (mark : Nat) : Nat → Nat → ItemBuffer α → ItemBuffer α
  | 0, _, b => b
  | fuel + 1, curPos, b =>
    let child := 2 * curPos + 1
    if child < mark then
      let target := if child + 1 < mark ∧ b.compareItems compare child (child + 1) then child + 1
        else child
      if b.compareItems compare target curPos then b
      else reheapLoop mark fuel target (b.swapItems curPos target)
    else b

/-- `reheap`: the position at least doubles, so `mark` rounds are enough -/
def reheap (mark : Nat) (b : ItemBuffer α) : ItemBuffer α := reheapLoop compare mark mark 0 b

/-- The inner loop of `heapify`: from a free position up, with the position where it ends -/
def siftUp (x : α) (b : ItemBuffer α) (curPos : Nat) : ItemBuffer α × Nat :=
  if curPos = 0 then (b, curPos)
  else
    let parent := (curPos - 1) / 2
    match (b.element parent).item with
    | none => (b, curPos)
    | some y =>
      if compare y x then siftUp x (b.moveItem curPos parent) parent else (b, curPos)
  termination_by curPos
  decreasing_by omega

/-- One round of the outer loop of `heapify` -/
def placeInHeap (b : ItemBuffer α) (mark : Nat) : ItemBuffer α :=
  match (b.element mark).item with
  | none => b
  | some x =>
    let (b, curPos) := siftUp compare x (b.destroyItem mark) mark
    (b.placeItem curPos x).2

/-- `heapify`, whose mark is the tail in the end -/
def heapify (b : ItemBuffer α) (mark : Nat) : ItemBuffer α :=
  (List.range' (max mark 1) (b.tail - max mark 1)).foldl (placeInHeap compare) b

/-- `prio_pop`, with the new mark -/
def prioPop (b : ItemBuffer α) (mark : Nat) : ItemBuffer α × Nat :=
  if prioUseTail compare b mark then (b.destroyBack, mark)
  else
    let b' := b.destroyItem 0
    let b' := if 1 < b.tail then b'.moveItem 0 (b.tail - 1) else b'
    let b' := { b' with tail := b.tail - 1 }
    let mark := if b'.tail < mark then mark - 1 else mark
    (if 1 < b'.tail then reheap compare mark b' else b', mark)

/-! ## The items of the heap -/

/-- All positions of a heap have items, except perhaps for one that is free. -/
structure Filled (W : SizeType) (b : ItemBuffer α) (free : Option Nat) (items : Multiset α) :
    Prop where
  head_eq : b.head = 0
  slots : ∃ slots, b.Represents W slots ∧
    (∀ i < b.tail, some i ≠ free → ∃ x, slots i = .hasItem x) ∧
    ∀ i, free = some i → slots i = .noItem
  available_eq : b.available = items

variable {W : SizeType} {b : ItemBuffer α} {items : Multiset α}

/-- A filled position has an item, which can be taken out. -/
theorem Filled.destroyItem (h : Filled W b none items) {i : Nat} (hi : i < b.tail) :
    ∃ x rest, (b.element i).item = some x ∧ items = rest + {x} ∧
      Filled W (b.destroyItem i) (some i) rest := by
  obtain ⟨hhead, ⟨slots, hrep, hfilled, -⟩, havailable⟩ := h
  obtain ⟨x, hx⟩ := hfilled i hi (by simp)
  have htail := hrep.tail_le
  have helement := hrep.element_eq (i := i) (by omega) (by omega)
  have hset := hrep.setSlot (i := i) (by omega) hi .noItem
  have hupdate := hrep.available_update hset
  rw [hx] at hupdate helement
  refine ⟨x, _, by rw [helement]; rfl, ?_, ⟨hhead, ⟨_, hset, ?_, ?_⟩, rfl⟩⟩
  · rw [← havailable]
    simpa [ItemBuffer.destroyItem] using hupdate.symm
  · intro j hj hne
    rw [update_of_ne (by rintro rfl; exact hne rfl)]
    exact hfilled j hj (by simp)
  · rintro j hj
    injection hj with hj
    rw [hj, update_self]

theorem Filled.setMyItem {i : Nat} (h : Filled W b (some i) items) (hi : i < b.tail) (x : α) :
    Filled W (b.setMyItem i x) none (items + {x}) := by
  obtain ⟨hhead, ⟨slots, hrep, hfilled, hfree⟩, havailable⟩ := h
  have hset := hrep.setSlot (i := i) (by omega) hi (.hasItem x)
  have hupdate := hrep.available_update hset
  rw [hfree i rfl] at hupdate
  refine ⟨hhead, ⟨_, hset, ?_, by simp⟩, ?_⟩
  · intro j hj _
    by_cases hji : j = i
    · exact ⟨x, by rw [hji, update_self]⟩
    · rw [update_of_ne hji]
      exact hfilled j hj (by simpa using hji)
  · rw [← havailable]
    simpa [ItemBuffer.setMyItem] using hupdate

theorem Filled.placeItem {i : Nat} (h : Filled W b (some i) items) (hi : i < b.tail) (x : α) :
    Filled W (b.placeItem i x).2 none (items + {x}) := by
  obtain ⟨slots, hrep, -, hfree⟩ := h.slots
  have hinvalid : ¬ b.itemValid i = true := fun hv => (hrep.itemValid_iff i).mp hv (hfree i rfl)
  rw [ItemBuffer.placeItem, if_neg hinvalid]
  exact h.setMyItem hi x

theorem Filled.moveItem {i j : Nat} (h : Filled W b (some i) items) (hi : i < b.tail)
    (hj : j < b.tail) (hij : j ≠ i) : Filled W (b.moveItem i j) (some j) items := by
  obtain ⟨slots, hrep, hfilled, -⟩ := h.slots
  have hhead := h.head_eq
  have htail := hrep.tail_le
  obtain ⟨x, hx⟩ := hfilled j hj (by simpa using hij)
  have hitem : (b.element j).item = some x := by
    rw [hrep.element_eq (by omega) (by omega), hx]
    rfl
  have hfull := h.setMyItem hi x
  obtain ⟨y, rest, hy, hrest, hmoved⟩ := hfull.destroyItem (i := j) hj
  have hsame : ((b.setMyItem i x).element j).item = some x := by
    have hset := hrep.setSlot (i := i) (by omega) hi (.hasItem x)
    rw [ItemBuffer.setMyItem, hset.element_eq (show b.head ≤ j by omega)
      (show j < b.head + b.arraySize by omega), update_of_ne hij, hx]
    rfl
  rw [hsame] at hy
  injection hy with hy
  subst hy
  rw [ItemBuffer.moveItem, hitem, add_right_cancel hrest]
  exact hmoved

theorem Filled.swapItems {i j : Nat} (h : Filled W b none items) (hi : i < b.tail)
    (hj : j < b.tail) (hij : j ≠ i) : Filled W (b.swapItems i j) none items := by
  obtain ⟨hhead, ⟨slots, hrep, hfilled, -⟩, havailable⟩ := h
  have htail := hrep.tail_le
  obtain ⟨x, hx⟩ := hfilled i hi (by simp)
  obtain ⟨y, hy⟩ := hfilled j hj (by simp)
  have hset := hrep.setSlot (i := i) (by omega) hi (.hasItem y)
  have hset' := hset.setSlot (i := j) (show b.head ≤ j by omega) (show j < b.tail by omega)
    (.hasItem x)
  have hupdate := hrep.available_update hset
  have hupdate' := hset.available_update hset'
  rw [update_of_ne hij] at hupdate'
  have hitems : b.swapItems i j = (b.setSlot i (.hasItem y)).setSlot j (.hasItem x) := by
    rw [ItemBuffer.swapItems, hrep.element_eq (by omega) (by omega),
      hrep.element_eq (by omega) (by omega), hx, hy]
    rfl
  rw [hitems]
  refine ⟨hhead, ⟨_, hset', ?_, by simp⟩, ?_⟩
  · intro k hk _
    by_cases hkj : k = j
    · exact ⟨x, by rw [hkj, update_self]⟩
    · rw [update_of_ne hkj]
      by_cases hki : k = i
      · exact ⟨y, by rw [hki, update_self]⟩
      · rw [update_of_ne hki]
        exact hfilled k hk (by simp)
  · rw [hx] at hupdate
    rw [hy] at hupdate'
    apply add_right_cancel (b := {y})
    calc _ = (b.setSlot i (.hasItem y)).available + {x} := hupdate'
      _ = b.available + {y} := hupdate
      _ = items + {y} := by rw [havailable]

theorem tail_moveItem (b : ItemBuffer α) (i j : Nat) : (b.moveItem i j).tail = b.tail := by
  unfold ItemBuffer.moveItem
  split <;> rfl

theorem tail_swapItems (b : ItemBuffer α) (i j : Nat) : (b.swapItems i j).tail = b.tail := by
  unfold ItemBuffer.swapItems
  split <;> rfl

theorem tail_placeItem (b : ItemBuffer α) (i : Nat) (x : α) :
    (b.placeItem i x).2.tail = b.tail := by
  unfold ItemBuffer.placeItem
  split <;> rfl

theorem Filled.reheapLoop (mark fuel curPos : Nat) (h : Filled W b none items)
    (hmark : mark ≤ b.tail) (hcur : curPos < b.tail) :
    Filled W (reheapLoop compare mark fuel curPos b) none items ∧
      (Priority.reheapLoop compare mark fuel curPos b).tail = b.tail := by
  induction fuel generalizing curPos b with
  | zero => exact ⟨h, rfl⟩
  | succ fuel ih =>
    unfold Priority.reheapLoop
    dsimp only
    split
    case isFalse => exact ⟨h, rfl⟩
    case isTrue hchild =>
      generalize htarget : (if 2 * curPos + 1 + 1 < mark ∧
        b.compareItems compare (2 * curPos + 1) (2 * curPos + 1 + 1) = true then
        2 * curPos + 1 + 1 else 2 * curPos + 1) = target
      have hbounds : target < mark ∧ target ≠ curPos := by
        rw [← htarget]
        split <;> omega
      split
      case isTrue => exact ⟨h, rfl⟩
      case isFalse =>
        have hswap := h.swapItems hcur (show target < b.tail by omega) hbounds.2
        have htail := tail_swapItems b curPos target
        obtain ⟨hfilled, htail'⟩ :=
          ih target hswap (by omega) (by omega)
        exact ⟨hfilled, htail'.trans htail⟩

theorem Filled.siftUp {curPos : Nat} (x : α) (h : Filled W b (some curPos) items)
    (hcur : curPos < b.tail) :
    Filled W (siftUp compare x b curPos).1 (some (Priority.siftUp compare x b curPos).2) items ∧
      (Priority.siftUp compare x b curPos).1.tail = b.tail ∧
      (Priority.siftUp compare x b curPos).2 < b.tail := by
  induction curPos using Nat.strong_induction_on generalizing b with
  | _ curPos ih =>
    rw [Priority.siftUp]
    split
    case isTrue => exact ⟨h, rfl, hcur⟩
    case isFalse hpos =>
      dsimp only
      split
      case h_1 => exact ⟨h, rfl, hcur⟩
      case h_2 =>
        split
        case isFalse => exact ⟨h, rfl, hcur⟩
        case isTrue =>
          have hmove := h.moveItem hcur (show (curPos - 1) / 2 < b.tail by omega) (by omega)
          have htail := tail_moveItem b curPos ((curPos - 1) / 2)
          have hstep := ih ((curPos - 1) / 2) (by omega) hmove (by omega)
          rwa [htail] at hstep

theorem Filled.placeInHeap {mark : Nat} (h : Filled W b none items) (hmark : mark < b.tail) :
    Filled W (placeInHeap compare b mark) none items ∧
      (Priority.placeInHeap compare b mark).tail = b.tail := by
  obtain ⟨x, rest, hx, hitems, hfree⟩ := h.destroyItem hmark
  obtain ⟨hsift, htail, hlt⟩ := hfree.siftUp compare x hmark
  have htail₀ : (b.destroyItem mark).tail = b.tail := rfl
  rw [htail₀] at htail hlt
  rw [Priority.placeInHeap, hx, hitems]
  exact ⟨hsift.placeItem (by omega) x, (tail_placeItem _ _ _).trans htail⟩

theorem Filled.heapify (mark : Nat) (h : Filled W b none items) :
    Filled W (heapify compare b mark) none items ∧
      (Priority.heapify compare b mark).tail = b.tail := by
  -- every round places an item below the tail, which no round changes
  have hrounds : ∀ (rounds : List Nat) (b' : ItemBuffer α), (∀ i ∈ rounds, i < b.tail) →
      Filled W b' none items → b'.tail = b.tail →
      Filled W (rounds.foldl (Priority.placeInHeap compare) b') none items ∧
        (rounds.foldl (Priority.placeInHeap compare) b').tail = b.tail := by
    intro rounds
    induction rounds with
    | nil => exact fun b' _ hfilled htail => ⟨hfilled, htail⟩
    | cons i rest ih =>
      intro b' hlt hfilled htail
      have hi := hlt i (mem_cons_self ..)
      obtain ⟨hfilled', htail'⟩ :=
        hfilled.placeInHeap compare (show i < b'.tail by omega)
      exact ih _ (fun j hj => hlt j (mem_cons_of_mem _ hj)) hfilled' (htail'.trans htail)
  apply hrounds _ b _ h rfl
  intro i hi
  rw [mem_range'_1] at hi
  omega

theorem Filled.dropLast (h : Filled W b (some (b.tail - 1)) items) (hpos : 0 < b.tail) :
    Filled W { b with tail := b.tail - 1 } none items := by
  obtain ⟨hhead, ⟨slots, hrep, hfilled, hfree⟩, havailable⟩ := h
  have htail := hrep.tail_le
  have hrep' : ItemBuffer.Represents W { b with tail := b.tail - 1 } slots := by
    constructor
    case size_eq => exact hrep.size_eq
    case tail_lt => exact lt_of_le_of_lt (Nat.sub_le _ _) hrep.tail_lt
    case head_le => exact hhead ▸ Nat.zero_le _
    case tail_le => exact le_trans (Nat.sub_le _ _) htail
    case cell => exact hrep.cell
    case outside =>
      intro i hi
      change i < b.head ∨ b.tail - 1 ≤ i at hi
      by_cases hlast : i = b.tail - 1
      · exact hfree i (by rw [hlast])
      · exact hrep.outside i (by omega)
  refine ⟨hhead, ⟨slots, hrep', ?_, by simp⟩, (hrep.available_congr hrep').trans havailable⟩
  intro i hi _
  change i < b.tail - 1 at hi
  exact hfilled i (by omega) (by simp; omega)

/-- `prio_pop` takes out the item `prio` returns. -/
theorem Filled.prioPop {mark : Nat} (h : Filled W b none items) (hpos : 0 < b.tail)
    (hmark : mark ≤ b.tail) :
    ∃ x rest, (b.element (prioIndex compare b mark)).item = some x ∧ items = rest + {x} ∧
      Filled W (Priority.prioPop compare b mark).1 none rest ∧
      (Priority.prioPop compare b mark).1.tail = b.tail - 1 ∧
      (Priority.prioPop compare b mark).2 ≤ b.tail - 1 := by
  unfold Priority.prioPop prioIndex
  by_cases huse : prioUseTail compare b mark = true
  · have hlt : mark < b.tail := by
      simp only [prioUseTail, Bool.and_eq_true, decide_eq_true_eq] at huse
      exact huse.1
    rw [if_pos huse, if_pos huse]
    obtain ⟨x, rest, hx, hitems, hfree⟩ := h.destroyItem (i := b.tail - 1) (by omega)
    exact ⟨x, rest, hx, hitems, hfree.dropLast hpos, rfl, by dsimp only; omega⟩
  · rw [if_neg huse, if_neg huse]
    obtain ⟨x, rest, hx, hitems, hfree⟩ := h.destroyItem (i := 0) hpos
    refine ⟨x, rest, hx, hitems, ?_⟩
    dsimp only
    have hshort : Filled W { (if 1 < b.tail then (b.destroyItem 0).moveItem 0 (b.tail - 1)
        else b.destroyItem 0) with tail := b.tail - 1 } none rest := by
      split
      case isTrue hmore =>
        have hmove := hfree.moveItem hpos (show b.tail - 1 < b.tail by omega) (by omega)
        have htail := tail_moveItem (b.destroyItem 0) 0 (b.tail - 1)
        change _ = b.tail at htail
        have hdrop := Filled.dropLast (b := (b.destroyItem 0).moveItem 0 (b.tail - 1))
          (by rw [htail]; exact hmove) (by omega)
        rwa [htail] at hdrop
      case isFalse hone =>
        have hzero : b.tail - 1 = 0 := by omega
        exact Filled.dropLast (b := b.destroyItem 0) (show Filled W _ (some (b.tail - 1)) _ by
          rwa [hzero]) hpos
    split
    case isTrue hmore =>
      obtain ⟨hfilled, htail⟩ := hshort.reheapLoop compare
        (if b.tail - 1 < mark then mark - 1 else mark)
        (if b.tail - 1 < mark then mark - 1 else mark) 0
        (by dsimp only; split <;> omega) (by dsimp only; omega)
      exact ⟨hfilled, htail, by split <;> omega⟩
    case isFalse => exact ⟨hshort, rfl, by split <;> omega⟩

theorem Filled.prioPush {x : α} {b' : ItemBuffer α} (h : Filled W b none items)
    (hpush : Priority.prioPush W b x = some b') :
    Filled W b' none (items + {x}) ∧ b'.tail = b.tail + 1 := by
  obtain ⟨hhead, ⟨slots, hrep, hfilled, -⟩, havailable⟩ := h
  have htail := hrep.tail_le
  rw [Priority.prioPush, map_eq_some_iff] at hpush
  obtain ⟨grown, hgrown, rfl⟩ := hpush
  obtain ⟨hrep', hhead', htail', hroom⟩ :=
    hrep.grow_append (fun hfull => ⟨by omega, by omega⟩) (fun hfull => by omega) hgrown
  have hinvalid : ¬ grown.itemValid grown.tail = true := fun hv =>
    (hrep'.itemValid_iff _).mp hv (hrep'.outside _ (.inr le_rfl))
  -- a heap lies at the front of its array
  obtain ⟨k, -, hsize, hmax⟩ := hrep'.size_eq
  have hword : grown.tail + 1 < 2 ^ W.bits := by
    have := W.maxArray_lt
    omega
  have happend := hrep'.append hroom hword x
  have hupdate := hrep'.available_update happend
  rw [hrep'.outside _ (.inr le_rfl)] at hupdate
  rw [ItemBuffer.placeItem, if_neg hinvalid]
  refine ⟨⟨hhead'.trans hhead, ⟨_, happend, ?_, by simp⟩, ?_⟩, (Nat.mod_eq_of_lt hword).trans (congrArg (· + 1) htail')⟩
  · intro i hi _
    change i < (grown.tail + 1) % 2 ^ W.bits at hi
    rw [Nat.mod_eq_of_lt hword] at hi
    by_cases hlast : i = grown.tail
    · exact ⟨x, by rw [hlast, update_self]⟩
    · rw [update_of_ne hlast]
      exact hfilled i (by omega) (by simp)
  · rw [← havailable, ← hrep.available_congr hrep']
    simpa using hupdate

end Priority

/-! ## Nodes -/

/-- The kind of a node selects the virtual functions. -/
inductive Kind (α : Type*) where
  | buffer
  | queue
  | sequencer (tag : α → Nat)
  | priority (compare : α → α → Bool)

structure Node (α : Type*) where
  buf : ItemBuffer α
  /-- `my_reserved` -/
  reserved : Bool
  /-- `mark` and `reserved_item` of `priority_queue_node` -/
  mark : Nat
  reservedItem : Option α
  forwarderBusy : Bool
  /-- `try_forwarding` of `handle_operations` -/
  tryForwarding : Bool
  /-- the messages whose puts succeeded -/
  accepted : List α
  /-- the messages that left the node -/
  delivered : List α
  /-- the message the reserver holds -/
  holder : Option α

def Node.initial : Node α := ⟨.initial, false, 0, none, false, false, [], [], none⟩

/-- The operations of `buffer_operation`. A forwarding has the answers of the successors. -/
inductive Op (α : Type*) where
  | regSucc
  | remSucc
  | reqItem
  | resItem
  | relRes
  | conRes
  | putItem (x : α)
  | tryFwdTask (answers : List Bool)

namespace Node

variable (W : SizeType) (kind : Kind α)

/-- `is_item_valid` -/
def isItemValid (s : Node α) : Bool :=
  match kind with
  | .buffer => s.buf.itemValid (s.buf.tail - 1)
  | .queue | .sequencer _ => s.buf.itemValid s.buf.head
  | .priority _ => 0 < s.buf.tail

/-- The item that is taken next, and the node without it. -/
def take (s : Node α) : Option (α × Node α) :=
  match kind with
  | .buffer => s.buf.popBack.map fun r => (r.1, { s with buf := r.2 })
  | .queue | .sequencer _ => (s.buf.popFront W).map fun r => (r.1, { s with buf := r.2 })
  | .priority compare =>
    (s.buf.element (Priority.prioIndex compare s.buf s.mark)).item.map fun x =>
      let r := Priority.prioPop compare s.buf s.mark
      (x, { s with buf := r.1, mark := r.2 })

/-- The taken item leaves the node. -/
def deliver (s : Node α) : Node α :=
  match s.take W kind with
  | none => s
  | some (x, s) => { s with delivered := s.delivered ++ [x] }

/-- `internal_pop` -/
def internalPop (s : Node α) : Bool × Node α :=
  match kind with
  | .buffer => (s.isItemValid kind, if s.isItemValid kind then s.deliver W kind else s)
  | _ =>
    if s.reserved || !s.isItemValid kind then (false, s) else (true, s.deliver W kind)

/-- `reserve_front` -/
def reserveFront (s : Node α) : Bool × Node α :=
  if s.reserved || !s.buf.itemValid s.buf.head then (false, s)
  else
    match (s.buf.element s.buf.head).item with
    | none => (false, s)
    | some x =>
      (true, { s with
        reserved := true, buf := s.buf.setSlot s.buf.head (.reservedItem x), holder := some x })

/-- `internal_reserve` -/
def internalReserve (s : Node α) : Bool × Node α :=
  match kind with
  | .priority _ =>
    if s.reserved || s.buf.tail = 0 then (false, s)
    else
      match s.take W kind with
      | none => (false, s)
      | some (x, s) =>
        (true, { s with reserved := true, reservedItem := some x, holder := some x })
  | _ => s.reserveFront

/-- `internal_consume` -/
def internalConsume (s : Node α) : Node α :=
  let s := { s with
    reserved := false, delivered := s.delivered ++ s.holder.toList, holder := none }
  match kind with
  | .priority _ => { s with reservedItem := none }
  | _ => { s with buf := s.buf.destroyFront W }

/-- `internal_release` -/
def internalRelease (s : Node α) : Option (Node α) :=
  match kind with
  | .priority _ =>
    match s.reservedItem with
    | none => some { s with reserved := false, holder := none }
    | some x => (Priority.prioPush W s.buf x).map fun buf =>
      { s with buf := buf, reserved := false, reservedItem := none, holder := none }
  | _ =>
    match (s.buf.element s.buf.head).item with
    | none => some { s with reserved := false, holder := none }
    | some x => some { s with
        buf := s.buf.setSlot s.buf.head (.hasItem x), reserved := false, holder := none }

/-- `internal_push` -/
def internalPush (s : Node α) (x : α) : Option (Bool × Node α) :=
  let pushed := match kind with
    | .buffer | .queue => (s.buf.pushBack W x).map fun buf => (true, buf)
    | .sequencer tag => s.buf.sequence W (tag x) x
    | .priority _ => (Priority.prioPush W s.buf x).map fun buf => (true, buf)
  pushed.map fun r =>
    (r.1, { s with buf := r.2, accepted := if r.1 then s.accepted ++ [x] else s.accepted })

/-- The loop of `internal_forward_task`: whether a successor accepted, whether the counter is
zero in the end, and the node -/
def forwardLoop : List Bool → Node α → Bool × Bool × Node α
  | [], s => (false, true, s)
  | answer :: rest, s =>
    if s.isItemValid kind then
      let r := forwardLoop rest (if answer then s.deliver W kind else s)
      (answer || r.1, r.2)
    else (false, false, s)

/-- `internal_forward_task` -/
def internalForwardTask (s : Node α) (answers : List Bool) : Bool × Node α :=
  if s.reserved || !s.isItemValid kind then (false, { s with forwarderBusy := false })
  else
    let r := forwardLoop W kind answers s
    if r.1 && r.2.1 then (true, r.2.2) else (false, { r.2.2 with forwarderBusy := false })

/-- One operation of `handle_operations`, with its status, or nothing if it does not return normally -/
def perform (s : Node α) : Op α → Option (Bool × Node α)
  | .regSucc => some (true, { s with tryForwarding := true })
  | .remSucc => some (true, s)
  | .reqItem => some (s.internalPop W kind)
  | .resItem => some (s.internalReserve W kind)
  | .relRes => (s.internalRelease W kind).map fun s => (true, { s with tryForwarding := true })
  | .conRes => some (true, { s.internalConsume W kind with tryForwarding := true })
  | .putItem x =>
    (s.internalPush W kind x).map fun r => (r.1, { r.2 with tryForwarding := r.1 })
  | .tryFwdTask answers => some (s.internalForwardTask W kind answers)

/-- `order` -/
def order (s : Node α) : Node α :=
  match kind with
  | .priority compare =>
    if s.mark < s.buf.tail then
      { s with buf := Priority.heapify compare s.buf s.mark, mark := s.buf.tail }
    else s
  | _ => s

/-- The end of `handle_operations` -/
def endBatch (s : Node α) (active : Bool) : Node α :=
  let s := s.order kind
  { s with
    forwarderBusy := s.forwarderBusy || (s.tryForwarding && active), tryForwarding := false }

end Node

end OneTbb.FlowGraph
