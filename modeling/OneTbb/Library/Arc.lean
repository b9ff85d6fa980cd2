import Mathlib.Data.List.Nodup
import Mathlib.Data.List.Range
import Mathlib.Data.List.Perm.Subperm
import Mathlib.Data.Nat.ModEq

/-!
# Arcs of a ring

The positions of a ring of `m` places are the numbers below `m`. An arc is the list of the
positions from a start on, in order.
-/

namespace OneTbb.Arc

open List

/-- The positions of `n` places from `head` on. -/
def arc (m head n : Nat) : List Nat := (range n).map fun i => (head + i) % m

variable {m head a b n : Nat}

/-- An arc is cut at any of its places. -/
theorem arc_add (m head a b : Nat) :
    arc m head (a + b) = arc m head a ++ arc m ((head + a) % m) b := by
  rw [arc, range_add, map_append, map_map]
  congr 1
  apply map_congr_left
  intro i _
  rw [Function.comp_apply, Nat.mod_add_mod, Nat.add_assoc]

theorem lt_of_mem_arc (hm : 0 < m) {x : Nat} (hx : x ∈ arc m head n) : x < m := by
  obtain ⟨i, _, rfl⟩ := mem_map.mp hx
  exact Nat.mod_lt _ hm

/-- An arc that is no longer than the ring meets no place twice. -/
theorem nodup_arc (h : n ≤ m) : (arc m head n).Nodup := by
  apply Nodup.map_on _ nodup_range
  intro i hi j hj heq
  rw [mem_range] at hi hj
  have hmod : i ≡ j [MOD m] := Nat.ModEq.add_left_cancel' head heq
  exact Nat.ModEq.eq_of_lt_of_lt hmod (by omega) (by omega)

/-- An arc as long as the ring goes through all its places. -/
theorem arc_perm_range (hm : 0 < m) (head : Nat) : (arc m head m).Perm (range m) := by
  have hsub : (arc m head m).Subperm (range m) := by
    apply subperm_of_subset (nodup_arc (Nat.le_refl m))
    intro x hx
    exact mem_range.mpr (lt_of_mem_arc hm hx)
  apply hsub.perm_of_length_le
  simp [arc]

end OneTbb.Arc
