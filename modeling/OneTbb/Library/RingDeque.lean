import Mathlib.Data.List.Basic
import OneTbb.Library.Ring

/-!
# Deques in a ring of slots

A ring of `n` slots holds a list from its tail on. A slot that is not part of the list is empty, so
one equation says both where the entries are and that nothing else is alive.
-/

namespace OneTbb.RingDeque

open List

variable {α : Type*} {n tail : Nat} {slots : Nat → Option α} {l : List α} {a b : α}

/-- The slots from `tail` on hold the list, and the other slots are empty. -/
structure Holds (n tail : Nat) (slots : Nat → Option α) (l : List α) : Prop where
  length_le : l.length ≤ n
  slot_eq : ∀ i, i < n → slots ((tail + i) % n) = l[i]?

theorem slot_ne {i k : Nat} (hi : i < n) (hk : k < n) (h : i ≠ k) :
    (tail + i) % n ≠ (tail + k) % n := by
  intro heq
  have := RingIndex.slot_injective (Nat.le_add_right tail i) (Nat.add_lt_add_left hi tail)
    (Nat.le_add_right tail k) (Nat.add_lt_add_left hk tail) heq
  omega

theorem Holds.update {l' : List α} {k : Nat} {x : Option α} (h : Holds n tail slots l)
    (hk : k < n) (hlength : l'.length ≤ n) (hself : l'[k]? = x)
    (hother : ∀ i, i ≠ k → l'[i]? = l[i]?) :
    Holds n tail (Function.update slots ((tail + k) % n) x) l' := by
  constructor
  case length_le => exact hlength
  case slot_eq =>
    intro i hi
    by_cases hik : i = k
    · subst hik
      rw [Function.update_self, hself]
    · rw [Function.update_of_ne (slot_ne hi hk hik), h.slot_eq i hi, hother i hik]

theorem Holds.back (h : Holds n tail slots (l ++ [a])) :
    slots ((tail + l.length) % n) = some a := by
  have hlength := h.length_le
  rw [length_append, length_singleton] at hlength
  rw [h.slot_eq l.length hlength, getElem?_concat_length]

theorem Holds.front (h : Holds n tail slots (a :: l)) : slots (tail % n) = some a := by
  have hlength := h.length_le
  rw [length_cons] at hlength
  exact h.slot_eq 0 (by omega)

/-- The slot after the last entry is empty as long as there is room. -/
theorem Holds.next (h : Holds n tail slots l) (hroom : l.length < n) :
    slots ((tail + l.length) % n) = none := by
  rw [h.slot_eq l.length hroom, getElem?_eq_none le_rfl]

theorem Holds.pushBack (h : Holds n tail slots l) (hroom : l.length < n) (a : α) :
    Holds n tail (Function.update slots ((tail + l.length) % n) (some a)) (l ++ [a]) := by
  apply h.update hroom
  · rw [length_append, length_singleton]
    exact hroom
  · exact getElem?_concat_length
  · intro i hi
    rcases Nat.lt_or_gt_of_ne hi with hlt | hgt
    · exact getElem?_append_left hlt
    · rw [getElem?_eq_none (by simp; omega), getElem?_eq_none (by omega)]

theorem Holds.popBack (h : Holds n tail slots (l ++ [a])) :
    Holds n tail (Function.update slots ((tail + l.length) % n) none) l := by
  have hlength := h.length_le
  rw [length_append, length_singleton] at hlength
  apply h.update hlength
  · omega
  · exact getElem?_eq_none le_rfl
  · intro i hi
    rcases Nat.lt_or_gt_of_ne hi with hlt | hgt
    · exact (getElem?_append_left hlt).symm
    · rw [getElem?_eq_none (by omega), getElem?_eq_none (by simp; omega)]

/-- Taking the first entry moves the tail. Its slot becomes the last one of the ring. -/
theorem Holds.popFront (h : Holds n tail slots (a :: l)) :
    Holds n ((tail + 1) % n) (Function.update slots (tail % n) none) l := by
  have hlength := h.length_le
  rw [length_cons] at hlength
  constructor
  case length_le => omega
  case slot_eq =>
    intro i hi
    rw [Nat.mod_add_mod, add_assoc, add_comm 1 i]
    by_cases hlast : i + 1 = n
    · rw [hlast, Nat.add_mod_right, Function.update_self, getElem?_eq_none (by omega)]
    · have hne : (tail + (i + 1)) % n ≠ tail % n :=
        slot_ne (k := 0) (by omega) (by omega) (Nat.succ_ne_zero i)
      rw [Function.update_of_ne hne, h.slot_eq (i + 1) (by omega), getElem?_cons_succ]

end OneTbb.RingDeque
