import Mathlib.Algebra.BigOperators.Group.List.Basic
import Mathlib.Algebra.Order.Ring.Nat

/-!
# Machine words of 32 bits

Unsigned words are natural numbers below `2 ^ 32`, signed words the integers
that fit into 32 bits. Arithmetic is done on numbers and reduced; the lemmas
say when nothing is lost by that.
-/

namespace OneTbb.Word

/-- Conversion to an unsigned word. -/
def ofInt (i : Int) : Nat := (i % 4294967296).toNat

/-- Conversion to a signed word. -/
def signed (i : Int) : Int := (i + 2147483648) % 4294967296 - 2147483648

/-- Addition of unsigned words. -/
def add (a b : Nat) : Nat := (a + b) % 4294967296

/-- Subtraction of unsigned words. -/
def sub (a b : Nat) : Nat := ofInt ((a : Int) - b)

/-- The sum of a list of unsigned words. -/
def sum (xs : List Nat) : Nat := xs.foldl add 0

theorem ofInt_lt (i : Int) : ofInt i < 4294967296 := by
  unfold ofInt
  omega

theorem ofInt_of_lt {i : Int} (h₀ : 0 ≤ i) (h : i < 4294967296) : (ofInt i : Int) = i := by
  unfold ofInt
  omega

theorem add_lt (a b : Nat) : add a b < 4294967296 := Nat.mod_lt _ (by decide)

theorem add_le (a b : Nat) : add a b ≤ a + b := Nat.mod_le _ _

theorem add_of_lt {a b : Nat} (h : a + b < 4294967296) : add a b = a + b := Nat.mod_eq_of_lt h

theorem sub_of_le {a b : Nat} (h : b ≤ a) (ha : a < 4294967296) : sub a b = a - b := by
  unfold sub ofInt
  omega

/-- A signed word is in the range of its type. -/
theorem signed_range (i : Int) : -2147483648 ≤ signed i ∧ signed i < 2147483648 := by
  unfold signed
  omega

theorem signed_le (n : Nat) : signed n ≤ n := by
  unfold signed
  omega

theorem foldl_add_eq (xs : List Nat) (a : Nat) :
    xs.foldl add a % 4294967296 = (a + xs.sum) % 4294967296 := by
  induction xs generalizing a with
  | nil => rfl
  | cons x rest ih =>
    rw [List.foldl_cons, ih, List.sum_cons]
    unfold add
    omega

theorem sum_lt (xs : List Nat) : sum xs < 4294967296 := by
  obtain rfl | ⟨init, x, rfl⟩ := xs.eq_nil_or_concat
  · exact Nat.zero_lt_succ _
  · unfold sum
    rw [List.concat_eq_append, List.foldl_append]
    exact add_lt _ _

theorem sum_eq (xs : List Nat) : sum xs = xs.sum % 4294967296 := by
  have h := foldl_add_eq xs 0
  rw [Nat.zero_add] at h
  rw [← h]
  exact (Nat.mod_eq_of_lt (sum_lt xs)).symm

theorem sum_of_lt {xs : List Nat} (h : xs.sum < 4294967296) : sum xs = xs.sum := by
  rw [sum_eq, Nat.mod_eq_of_lt h]

theorem sum_map_sum {α : Type*} (l : List α) (f : α → List Nat) :
    sum (l.map fun a => sum (f a)) = sum (l.map fun a => (f a).sum) := by
  rw [sum_eq, sum_eq]
  induction l with
  | nil => rfl
  | cons a rest ih =>
    rw [List.map_cons, List.map_cons, List.sum_cons, List.sum_cons, sum_eq]
    omega

end OneTbb.Word
