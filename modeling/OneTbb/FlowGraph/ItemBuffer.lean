import OneTbb.Library.Ring
import Mathlib.Algebra.BigOperators.Group.Finset.Basic
import Mathlib.Order.Interval.Finset.Nat
import Mathlib.Tactic.Abel

/-!
# `item_buffer`

The items of the buffering nodes lie in a ring whose size is a power of two. A slot
is empty, has an item, or has a reserved item. The ring represents one slot for
every number, with all slots outside of the head and the tail empty.
-/

namespace OneTbb.FlowGraph

open Function List Nat

variable {α : Type*}

/-- `buffer_item_state`, with the item -/
inductive Slot (α : Type*) where
  | noItem
  | hasItem (x : α)
  | reservedItem (x : α)
  deriving DecidableEq, Repr

/-- `element(i).item`, if there is one -/
def Slot.item : Slot α → Option α
  | .noItem => none
  | .hasItem x => some x
  | .reservedItem x => some x

/-- What a taker may get from the slot. -/
def Slot.available : Slot α → Multiset α
  | .hasItem x => {x}
  | _ => 0

@[simp] theorem Slot.available_noItem : (Slot.noItem : Slot α).available = 0 := rfl

@[simp] theorem Slot.available_hasItem (x : α) : (Slot.hasItem x).available = {x} := rfl

@[simp] theorem Slot.available_reservedItem (x : α) : (Slot.reservedItem x).available = 0 := rfl

/-- `size_t`, and the number of slots above which `allocate` throws: `bad_array_new_length`
above `~size_t(0) / sizeof(buffer_item_type)`, and `bad_alloc` above what memory there is. -/
structure SizeType where
  bits : Nat
  maxLength : Nat
  two_lt_bits : 2 < bits
  four_le_maxLength : 4 ≤ maxLength

/-- The largest power of two that `allocate` provides. -/
def SizeType.maxArray (W : SizeType) : Nat := 2 ^ min (W.bits - 1) W.maxLength.log2

theorem SizeType.maxArray_lt (W : SizeType) : W.maxArray < 2 ^ W.bits :=
  Nat.pow_lt_pow_right (by decide) (by have := W.two_lt_bits; omega)

theorem SizeType.two_pow_le_maxArray (W : SizeType) {k : Nat} (hk : k < W.bits) :
    2 ^ k ≤ W.maxArray ↔ 2 ^ k ≤ W.maxLength := by
  have hlength := W.four_le_maxLength
  rw [maxArray, Nat.pow_le_pow_iff_right (by decide), Nat.le_min, Nat.le_log2 (by omega)]
  exact and_iff_right (by omega)

/-- A `size_t` of 64 bits, and slots of 16 bytes. -/
def SizeType.word64 : SizeType := ⟨64, (2 ^ 64 - 1) / 16, by decide, by decide⟩

/-- `my_head` and `my_tail` are words. -/
structure ItemBuffer (α : Type*) where
  array : Nat → Slot α
  arraySize : Nat
  head : Nat
  tail : Nat

namespace ItemBuffer

/-- The buffer of a new node has `initial_buffer_size` slots. -/
def initial : ItemBuffer α := ⟨fun _ => .noItem, 4, 0, 0⟩

def element (b : ItemBuffer α) (i : Nat) : Slot α := b.array (i &&& (b.arraySize - 1))

/-- `my_item_valid` -/
def itemValid (b : ItemBuffer α) (i : Nat) : Bool :=
  i < b.tail && b.head ≤ i && (b.element i).item.isSome

def setSlot (b : ItemBuffer α) (i : Nat) (slot : Slot α) : ItemBuffer α :=
  { b with array := update b.array (i &&& (b.arraySize - 1)) slot }

/-- `set_my_item`, which destroys an item that is there before -/
def setMyItem (b : ItemBuffer α) (i : Nat) (x : α) : ItemBuffer α := b.setSlot i (.hasItem x)

/-- `destroy_item` -/
def destroyItem (b : ItemBuffer α) (i : Nat) : ItemBuffer α := b.setSlot i .noItem

/-- `destroy_front` -/
def destroyFront (W : SizeType) (b : ItemBuffer α) : ItemBuffer α :=
  { b.destroyItem b.head with head := (b.head + 1) % 2 ^ W.bits }

/-- `destroy_back`, which is called on buffers with items only -/
def destroyBack (b : ItemBuffer α) : ItemBuffer α :=
  { b.destroyItem (b.tail - 1) with tail := b.tail - 1 }

/-- The loop of `grow_my_array` on words of some bits, if it ends within the fuel. -/
def growLoop (bits minimum : Nat) : Nat → Nat → Option Nat
  | fuel, newSize =>
    if minimum ≤ newSize then some newSize
    else
      match fuel with
      | 0 => none
      | fuel + 1 => growLoop bits minimum fuel (2 * newSize % 2 ^ bits)

/-- `size`, with the tail to test against -/
def size (W : SizeType) (b : ItemBuffer α) (tail : Nat) : Nat :=
  (tail + 2 ^ W.bits - b.head) % 2 ^ W.bits

/-- The copies of the valid items in a new array. -/
def copied (b : ItemBuffer α) (newSize : Nat) : Nat → Slot α :=
  (range' b.head (b.tail - b.head)).foldl
    (fun array i => if b.itemValid i then update array (i &&& (newSize - 1)) (b.element i)
      else array) fun _ => .noItem

/-- `grow_my_array`, or nothing if its loop does not end or `allocate` throws -/
def growMyArray (W : SizeType) (b : ItemBuffer α) (minimum : Nat) : Option (ItemBuffer α) :=
  ((growLoop W.bits minimum W.bits
    (if b.arraySize = 0 then 4 else 2 * b.arraySize % 2 ^ W.bits)).filter (· ≤ W.maxLength)).map
    fun newSize => { b with array := b.copied newSize, arraySize := newSize }

/-- `push_back` -/
def pushBack (W : SizeType) (b : ItemBuffer α) (x : α) : Option (ItemBuffer α) :=
  (if b.arraySize ≤ b.size W b.tail then b.growMyArray W (b.size W b.tail + 1)
    else some b).map fun b => { b.setMyItem b.tail x with tail := (b.tail + 1) % 2 ^ W.bits }

/-- `pop_back` -/
def popBack (b : ItemBuffer α) : Option (α × ItemBuffer α) :=
  if b.itemValid (b.tail - 1) then
    (b.element (b.tail - 1)).item.map fun x => (x, b.destroyBack)
  else none

/-- `pop_front` -/
def popFront (W : SizeType) (b : ItemBuffer α) : Option (α × ItemBuffer α) :=
  if b.itemValid b.head then (b.element b.head).item.map fun x => (x, b.destroyFront W)
  else none

/-- What takers may get from the buffer. -/
def available (b : ItemBuffer α) : Multiset α :=
  ∑ i ∈ Finset.Ico b.head b.tail, (b.element i).available

/-! ## The slots a ring represents -/

/-- The ring has the slots of a window from its head on, and all other slots are empty. -/
structure Represents (W : SizeType) (b : ItemBuffer α) (slots : Nat → Slot α) : Prop where
  size_eq : ∃ k < W.bits, b.arraySize = 2 ^ k ∧ 2 ^ k ≤ W.maxArray
  tail_lt : b.tail < 2 ^ W.bits
  head_le : b.head ≤ b.tail
  tail_le : b.tail ≤ b.head + b.arraySize
  cell : ∀ i, b.head ≤ i → i < b.head + b.arraySize → b.array (i % b.arraySize) = slots i
  outside : ∀ i, i < b.head ∨ b.tail ≤ i → slots i = .noItem

variable {W : SizeType} {b : ItemBuffer α} {slots : Nat → Slot α} {i : Nat}

theorem Represents.initial : Represents W (initial : ItemBuffer α) fun _ => .noItem where
  size_eq := ⟨2, W.two_lt_bits, rfl,
    (W.two_pow_le_maxArray W.two_lt_bits).mpr W.four_le_maxLength⟩
  tail_lt := Nat.two_pow_pos _
  head_le := le_rfl
  tail_le := zero_le _
  cell _ _ _ := rfl
  outside _ _ := rfl

theorem size_of_le (hlow : b.head ≤ i) (hhigh : i < 2 ^ W.bits) : b.size W i = i - b.head := by
  rw [ItemBuffer.size, show i + 2 ^ W.bits - b.head = i - b.head + 2 ^ W.bits by omega,
    add_mod_right]
  exact mod_eq_of_lt (by omega)

section

variable (h : Represents W b slots)
include h

theorem Represents.and_eq (i : Nat) :
    i &&& (b.arraySize - 1) = i % b.arraySize := by
  obtain ⟨k, -, hk, -⟩ := h.size_eq
  rw [hk]
  exact and_two_pow_sub_one_eq_mod i k

theorem Represents.element_eq (hlow : b.head ≤ i)
    (hhigh : i < b.head + b.arraySize) : b.element i = slots i := by
  rw [element, h.and_eq]
  exact h.cell i hlow hhigh

theorem Represents.itemValid_iff (i : Nat) :
    b.itemValid i = true ↔ slots i ≠ .noItem := by
  have hsome : ∀ slot : Slot α, slot.item.isSome = true ↔ slot ≠ .noItem := by
    intro slot
    cases slot <;> simp [Slot.item]
  have htail := h.tail_le
  by_cases hin : b.head ≤ i ∧ i < b.tail
  · simp [itemValid, hin.1, hin.2, h.element_eq hin.1 (by omega), hsome]
  · have hout := h.outside i (by omega)
    simp only [itemValid, Bool.and_eq_true, decide_eq_true_eq, hout, ne_eq, not_true_eq_false,
      iff_false]
    omega

/-- Changing a slot between head and tail changes that slot only. -/
theorem Represents.setSlot (hlow : b.head ≤ i) (hhigh : i < b.tail)
    (slot : Slot α) : Represents W (b.setSlot i slot) (update slots i slot) where
  size_eq := h.size_eq
  tail_lt := h.tail_lt
  head_le := h.head_le
  tail_le := h.tail_le
  cell := by
    intro j hj hj'
    have htail := h.tail_le
    change b.head ≤ j at hj
    change j < b.head + b.arraySize at hj'
    change update b.array (i &&& (b.arraySize - 1)) slot (j % b.arraySize) = _
    rw [h.and_eq]
    by_cases hji : j = i
    · subst hji
      rw [update_self, update_self]
    · have hslot : j % b.arraySize ≠ i % b.arraySize := fun heq =>
        hji (RingIndex.slot_injective hj hj' hlow (by omega) heq)
      rw [update_of_ne hslot, update_of_ne hji]
      exact h.cell j hj hj'
  outside := by
    intro j hj
    have hji : j ≠ i := by
      rintro rfl
      change j < b.head ∨ b.tail ≤ j at hj
      omega
    rw [update_of_ne hji]
    exact h.outside j hj

theorem Represents.destroyFront_eq (hne : b.head < b.tail) :
    b.destroyFront W = { b.destroyItem b.head with head := b.head + 1 } := by
  have htail := h.tail_lt
  simp only [ItemBuffer.destroyFront, mod_eq_of_lt (show b.head + 1 < 2 ^ W.bits by omega)]

theorem Represents.destroyFront (hne : b.head < b.tail) :
    Represents W (b.destroyFront W) (update slots b.head .noItem) := by
  have hset := h.setSlot le_rfl hne .noItem
  have htail := h.tail_le
  rw [h.destroyFront_eq hne]
  constructor
  case size_eq => exact h.size_eq
  case tail_lt => exact h.tail_lt
  case head_le => exact hne
  case tail_le =>
    change b.tail ≤ b.head + 1 + b.arraySize
    omega
  case cell =>
    intro i hi hi'
    change b.head + 1 ≤ i at hi
    change i < b.head + 1 + b.arraySize at hi'
    rcases lt_or_ge i (b.head + b.arraySize) with hlt | hge
    · exact hset.cell i (show b.head ≤ i by omega) hlt
    · -- the slot that the window gains is the one it has lost
      obtain rfl : i = b.head + b.arraySize := by omega
      have hfirst := hset.cell b.head (Nat.le_refl b.head)
        (show b.head < b.head + b.arraySize by omega)
      have hlast := hset.outside (b.head + b.arraySize) (.inr htail)
      rw [hlast]
      rw [update_self] at hfirst
      rw [← hfirst]
      exact congrArg _ (add_mod_right _ _)
  case outside =>
    intro i hi
    change i < b.head + 1 ∨ b.tail ≤ i at hi
    by_cases hhead : i = b.head
    · rw [hhead, update_self]
    · exact hset.outside i (show i < b.head ∨ b.tail ≤ i by omega)

theorem Represents.destroyBack (hne : b.head < b.tail) :
    Represents W b.destroyBack (update slots (b.tail - 1) .noItem) := by
  have hset := h.setSlot (i := b.tail - 1) (by omega) (by omega) .noItem
  have htail := h.tail_le
  constructor
  case size_eq => exact h.size_eq
  case tail_lt => exact lt_of_le_of_lt (Nat.sub_le _ _) h.tail_lt
  case head_le => exact le_sub_one_of_lt hne
  case tail_le =>
    change b.tail - 1 ≤ b.head + b.arraySize
    omega
  case cell => exact hset.cell
  case outside =>
    intro i hi
    change i < b.head ∨ b.tail - 1 ≤ i at hi
    by_cases hlast : i = b.tail - 1
    · rw [hlast, update_self]
    · exact hset.outside i (show i < b.head ∨ b.tail ≤ i by omega)

theorem Represents.extend {tail : Nat} (hlow : b.tail ≤ tail)
    (hhigh : tail ≤ b.head + b.arraySize) (hword : tail < 2 ^ W.bits) :
    Represents W { b with tail := tail } slots where
  size_eq := h.size_eq
  tail_lt := hword
  head_le := le_trans h.head_le hlow
  tail_le := hhigh
  cell := h.cell
  outside := by
    intro i hi
    change i < b.head ∨ tail ≤ i at hi
    exact h.outside i (by omega)

theorem Represents.append (hroom : b.tail < b.head + b.arraySize) (hword : b.tail + 1 < 2 ^ W.bits)
    (x : α) : Represents W { b.setMyItem b.tail x with tail := (b.tail + 1) % 2 ^ W.bits }
      (update slots b.tail (.hasItem x)) := by
  have hextend := h.extend (le_succ b.tail) hroom hword
  rw [mod_eq_of_lt hword]
  exact hextend.setSlot (i := b.tail) h.head_le (lt_succ_self b.tail) (.hasItem x)

end

/-! ## Growth -/

/-- The loop ends with a power of two, if there is one that is large enough. -/
theorem growLoop_eq_some {bits minimum k m fuel : Nat} (hk : k ≤ m) (hm : m < bits)
    (hmin : minimum ≤ 2 ^ m) (hfuel : m ≤ k + fuel) :
    ∃ j ≤ m, minimum ≤ 2 ^ j ∧ growLoop bits minimum fuel (2 ^ k) = some (2 ^ j) := by
  induction fuel generalizing k with
  | zero =>
    obtain rfl : k = m := by omega
    exact ⟨_, le_rfl, hmin, by rw [growLoop, if_pos hmin]⟩
  | succ fuel ih =>
    by_cases hle : minimum ≤ 2 ^ k
    · exact ⟨k, hk, hle, by rw [growLoop, if_pos hle]⟩
    · have hnext : k ≠ m := by
        rintro rfl
        exact hle hmin
      obtain ⟨j, hj, hmin', heq⟩ := ih (k := k + 1) (by omega) (by omega)
      refine ⟨j, hj, hmin', ?_⟩
      rw [growLoop, if_neg hle, ← pow_succ',
        mod_eq_of_lt (Nat.pow_lt_pow_right (by decide) (by omega)), heq]

theorem wrap_pow {bits k : Nat} (hk : k < bits) :
    2 ^ (k + 1) % 2 ^ bits = 0 ∨ ∃ j < bits, 2 ^ (k + 1) % 2 ^ bits = 2 ^ j := by
  rcases lt_or_ge (k + 1) bits with hnext | hlast
  · exact .inr ⟨k + 1, hnext, mod_eq_of_lt (Nat.pow_lt_pow_right (by decide) hnext)⟩
  · rw [show k + 1 = bits by omega, mod_self]
    exact .inl rfl

/-- If there is none, the size wraps to zero and stays there, so the loop ends with a power of
two or not at all. -/
theorem growLoop_pow {bits minimum newSize r : Nat} (hpos : 0 < minimum)
    (hsize : newSize = 0 ∨ ∃ k < bits, newSize = 2 ^ k) {fuel : Nat}
    (hr : growLoop bits minimum fuel newSize = some r) : minimum ≤ r ∧ ∃ k < bits, r = 2 ^ k := by
  induction fuel generalizing newSize with
  | zero =>
    rw [growLoop] at hr
    split at hr
    case isTrue hle =>
      cases hr
      exact ⟨hle, hsize.resolve_left (by omega)⟩
    case isFalse => cases hr
  | succ fuel ih =>
    rw [growLoop] at hr
    split at hr
    case isTrue hle =>
      cases hr
      exact ⟨hle, hsize.resolve_left (by omega)⟩
    case isFalse =>
      refine ih ?_ hr
      rcases hsize with rfl | ⟨k, hk, rfl⟩
      · exact .inl (by simp)
      · rw [← pow_succ']
        exact wrap_pow hk

section

variable (h : Represents W b slots)
include h

/-- The copies are the slots the ring represents. -/
theorem Represents.copied_eq {k : Nat}
    (hsize : b.tail ≤ b.head + 2 ^ k) (hlow : b.head ≤ i) (hhigh : i < b.head + 2 ^ k) :
    b.copied (2 ^ k) (i % 2 ^ k) = slots i := by
  -- after some of the items, these are there and nothing else
  have hpart : ∀ n, b.head + n ≤ b.tail → ∀ i, b.head ≤ i → i < b.head + 2 ^ k →
      (range' b.head n).foldl (fun array i => if b.itemValid i then
        update array (i &&& (2 ^ k - 1)) (b.element i) else array)
        (fun _ => Slot.noItem) (i % 2 ^ k) = if i < b.head + n then slots i else .noItem := by
    intro n
    induction n with
    | zero =>
      intro _ i hi _
      rw [if_neg (by omega)]
      rfl
    | succ n ih =>
      intro hn i hi hi'
      rw [range'_concat, foldl_append, foldl_cons, foldl_nil, one_mul]
      have hrest := ih (by omega) i hi hi'
      have hlast : b.element (b.head + n) = slots (b.head + n) :=
        h.element_eq (by omega) (by have := h.tail_le; omega)
      have hvalid := h.itemValid_iff (b.head + n)
      by_cases hcur : i = b.head + n
      · subst hcur
        rw [if_pos (show b.head + n < b.head + (n + 1) by omega)]
        by_cases hv : b.itemValid (b.head + n) = true
        · rw [if_pos hv, and_two_pow_sub_one_eq_mod, update_self, hlast]
        · rw [if_neg hv, hrest, if_neg (by omega)]
          exact (not_not.mp fun hne => hv (hvalid.mpr fun he => hne he.symm))
      · have hslot : i % 2 ^ k ≠ (b.head + n) % 2 ^ k := fun heq =>
          hcur (RingIndex.slot_injective hi hi' (by omega) (by omega) heq)
        have hsame : (if i < b.head + (n + 1) then slots i else Slot.noItem) =
            if i < b.head + n then slots i else .noItem := by
          split_ifs <;> first | rfl | omega
        rw [hsame, ← hrest]
        by_cases hv : b.itemValid (b.head + n) = true
        · rw [if_pos hv, and_two_pow_sub_one_eq_mod, update_of_ne hslot]
        · rw [if_neg hv]
  have hhead := h.head_le
  have hall := hpart (b.tail - b.head) (by omega) i hlow hhigh
  unfold copied
  rw [hall]
  split
  case isTrue => rfl
  case isFalse hge => exact (h.outside i (by omega)).symm

/-- Growth keeps all slots, and it succeeds if there is an array that is large enough. -/
theorem Represents.growMyArray {minimum : Nat} (hmin : b.arraySize < minimum) :
    if minimum ≤ W.maxArray then
      ∃ b', b.growMyArray W minimum = some b' ∧ Represents W b' slots ∧
        b'.head = b.head ∧ b'.tail = b.tail ∧ minimum ≤ b'.arraySize
    else b.growMyArray W minimum = none := by
  obtain ⟨k, hk, hsize, -⟩ := h.size_eq
  have hpos := Nat.two_pow_pos k
  have htail := h.tail_le
  have hstart : (if b.arraySize = 0 then 4 else 2 * b.arraySize % 2 ^ W.bits) =
      2 ^ (k + 1) % 2 ^ W.bits := by
    rw [if_neg (by omega), hsize, ← pow_succ']
  unfold ItemBuffer.growMyArray
  rw [hstart]
  split
  case isTrue hle =>
    have hbits := W.two_lt_bits
    obtain ⟨m, hm, hmax⟩ : ∃ m < W.bits, W.maxArray = 2 ^ m :=
      ⟨_, by omega, rfl⟩
    rw [hmax] at hle
    have hnext : k < m := (Nat.pow_lt_pow_iff_right Nat.one_lt_two).mp (by omega)
    rw [mod_eq_of_lt (Nat.pow_lt_pow_right (by decide) (by omega))]
    obtain ⟨j, hj, hbig, heq⟩ := @growLoop_eq_some W.bits minimum (k + 1) m W.bits hnext hm hle
      (by omega)
    have hmost : 2 ^ j ≤ W.maxArray := hmax ▸ Nat.pow_le_pow_right (by decide) hj
    have hlength := (W.two_pow_le_maxArray (by omega)).mp hmost
    rw [heq, Option.filter_some, if_pos (decide_eq_true hlength)]
    refine ⟨_, rfl, ?_, rfl, rfl, hbig⟩
    constructor
    case size_eq => exact ⟨j, by omega, rfl, hmost⟩
    case tail_lt => exact h.tail_lt
    case head_le => exact h.head_le
    case tail_le =>
      change b.tail ≤ b.head + 2 ^ j
      omega
    case cell =>
      intro i hi hi'
      exact h.copied_eq (by omega) hi hi'
    case outside => exact h.outside
  case isFalse hgt =>
    rw [Option.map_eq_none_iff, Option.filter_eq_none_iff]
    intro r hr
    obtain ⟨hle, j, hj, rfl⟩ := growLoop_pow (by omega) (wrap_pow hk) hr
    have := (W.two_pow_le_maxArray hj).mpr
    simp only [decide_eq_true_eq]
    omega

theorem Represents.grow_append {full : Prop} [Decidable full]
    {minimum : Nat} (hfull : full → b.arraySize < minimum ∧ b.tail < b.head + minimum)
    (hroom : ¬ full → b.tail < b.head + b.arraySize) {b' : ItemBuffer α}
    (hb' : (if full then b.growMyArray W minimum else some b) = some b') :
    Represents W b' slots ∧ b'.head = b.head ∧ b'.tail = b.tail ∧
      b'.tail < b'.head + b'.arraySize := by
  split at hb'
  case isTrue hf =>
    obtain ⟨hsize, hminimum⟩ := hfull hf
    have hgrow := h.growMyArray hsize
    split at hgrow
    case isTrue =>
      obtain ⟨b'', heq, hrep, hhead, htail, hbig⟩ := hgrow
      rw [hb'] at heq
      injection heq with heq
      subst heq
      exact ⟨hrep, hhead, htail, by omega⟩
    case isFalse => rw [hgrow] at hb'; cases hb'
  case isFalse hf =>
    injection hb' with hb'
    subst hb'
    exact ⟨h, rfl, rfl, hroom hf⟩

/-! ## What takers may get -/

theorem Represents.available_eq {n : Nat} (hn : b.tail ≤ n) :
    b.available = ∑ i ∈ Finset.range n, (slots i).available := by
  have htail := h.tail_le
  calc b.available = ∑ i ∈ Finset.Ico b.head b.tail, (slots i).available := by
        apply Finset.sum_congr rfl
        intro i hi
        rw [Finset.mem_Ico] at hi
        rw [h.element_eq hi.1 (by omega)]
    _ = ∑ i ∈ Finset.range n, (slots i).available := by
        apply Finset.sum_subset
        · intro i hi
          rw [Finset.mem_Ico] at hi
          exact Finset.mem_range.mpr (by omega)
        · intro i _ hi
          rw [Finset.mem_Ico] at hi
          rw [h.outside i (by omega)]
          rfl

theorem Represents.available_congr {b' : ItemBuffer α}
    (h' : Represents W b' slots) : b'.available = b.available := by
  rw [h.available_eq (Nat.le_max_left b.tail b'.tail),
    h'.available_eq (Nat.le_max_right b.tail b'.tail)]

theorem Represents.available_update {b' : ItemBuffer α} {slot : Slot α}
    (h' : Represents W b' (update slots i slot)) :
    b'.available + (slots i).available = b.available + slot.available := by
  let n := max (max b.tail b'.tail) (i + 1)
  have hi : i ∈ Finset.range n := Finset.mem_range.mpr (Nat.le_max_right _ _)
  rw [h.available_eq (n := n) (by omega), h'.available_eq (n := n) (by omega),
    ← Finset.add_sum_erase _ _ hi, ← Finset.add_sum_erase _ (fun j => (slots j).available) hi,
    update_self]
  have hrest : ∑ j ∈ (Finset.range n).erase i, (update slots i slot j).available =
      ∑ j ∈ (Finset.range n).erase i, (slots j).available := by
    apply Finset.sum_congr rfl
    intro j hj
    rw [update_of_ne (Finset.ne_of_mem_erase hj)]
  rw [hrest]
  abel

/-! ## Taking items -/

theorem Represents.of_item {x : α} (hx : (slots i).item = some x) :
    b.head ≤ i ∧ i < b.tail ∧ (b.element i).item = some x := by
  have htail := h.tail_le
  have hin : b.head ≤ i ∧ i < b.tail := by
    by_contra hout
    rw [h.outside i (by omega)] at hx
    cases hx
  exact ⟨hin.1, hin.2, by rw [h.element_eq hin.1 (by omega), hx]⟩

theorem Represents.exists_item (hvalid : b.itemValid i = true)
    (hfree : ∀ x, slots i ≠ .reservedItem x) :
    ∃ x, slots i = .hasItem x ∧ b.head ≤ i ∧ i < b.tail ∧ (b.element i).item = some x := by
  cases hslot : slots i with
  | noItem => exact absurd hslot ((h.itemValid_iff i).mp hvalid)
  | reservedItem x => exact absurd hslot (hfree x)
  | hasItem x => exact ⟨x, rfl, h.of_item (by rw [hslot]; rfl)⟩

theorem Represents.mem_available {x : α} :
    x ∈ b.available ↔ ∃ i, slots i = .hasItem x := by
  rw [h.available_eq le_rfl, Multiset.mem_sum]
  constructor
  · rintro ⟨i, -, hx⟩
    cases hslot : slots i with
    | hasItem y =>
      rw [hslot, Slot.available_hasItem, Multiset.mem_singleton] at hx
      exact ⟨i, by rw [hx, hslot]⟩
    | noItem | reservedItem y => simp [hslot] at hx
  · rintro ⟨i, hx⟩
    have hin := h.of_item (x := x) (by rw [hx]; rfl)
    exact ⟨i, Finset.mem_range.mpr hin.2.1, by simp [hx]⟩

theorem Represents.popBack (hvalid : b.itemValid (b.tail - 1) = true)
    (hfree : ∀ x, slots (b.tail - 1) ≠ .reservedItem x) :
    ∃ x, b.popBack = some (x, b.destroyBack) ∧ slots (b.tail - 1) = .hasItem x ∧
      Represents W b.destroyBack (update slots (b.tail - 1) .noItem) ∧
      b.available = b.destroyBack.available + {x} := by
  obtain ⟨x, hslot, hlow, hhigh, hitem⟩ := h.exists_item hvalid hfree
  have hdestroy := h.destroyBack (by omega)
  have hupdate := h.available_update hdestroy
  rw [hslot] at hupdate
  refine ⟨x, ?_, hslot, hdestroy, by simpa using hupdate.symm⟩
  rw [ItemBuffer.popBack, if_pos hvalid, hitem]
  rfl

theorem Represents.popFront (hvalid : b.itemValid b.head = true)
    (hfree : ∀ x, slots b.head ≠ .reservedItem x) :
    ∃ x, b.popFront W = some (x, b.destroyFront W) ∧ slots b.head = .hasItem x ∧
      Represents W (b.destroyFront W) (update slots b.head .noItem) ∧
      b.available = (b.destroyFront W).available + {x} := by
  obtain ⟨x, hslot, hlow, hhigh, hitem⟩ := h.exists_item hvalid hfree
  have hdestroy := h.destroyFront hhigh
  have hupdate := h.available_update hdestroy
  rw [hslot] at hupdate
  refine ⟨x, ?_, hslot, hdestroy, by simpa using hupdate.symm⟩
  rw [ItemBuffer.popFront, if_pos hvalid, hitem]
  rfl

end

theorem update_eq_reservedItem {slot : Slot α} (hold : ∀ y, slots i ≠ .reservedItem y)
    (hnew : ∀ y, slot ≠ .reservedItem y) (j : Nat) (x : α) :
    update slots i slot j = .reservedItem x ↔ slots j = .reservedItem x := by
  by_cases hji : j = i
  · rw [hji, update_self]
    exact ⟨fun h => absurd h (hnew x), fun h => absurd h (hold x)⟩
  · rw [update_of_ne hji]

end ItemBuffer

end OneTbb.FlowGraph
