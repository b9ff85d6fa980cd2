import Mathlib.Algebra.Order.BigOperators.Group.Finset
import Mathlib.Tactic.Abel

/-!
# Counting when one position changes

The calls under way are a list, and a step changes or removes the call at one
position. The rules say what that does to the number of calls of a kind, and to a sum
over numbered parts of which one changes.
-/

namespace OneTbb.Positions

open List

variable {α : Type*} {l : List α} {i : Nat} {a : α}

/-- The call at a position, and the calls before and after it. -/
theorem exists_split (h : l[i]? = some a) :
    ∃ before after, l = before ++ a :: after ∧ l.eraseIdx i = before ++ after ∧
      ∀ b, l.set i b = before ++ b :: after := by
  obtain ⟨hi, rfl⟩ := List.getElem?_eq_some_iff.mp h
  refine ⟨l.take i, l.drop (i + 1), ?_, eraseIdx_eq_take_drop_succ _ _, fun b => ?_⟩
  · rw [getElem_cons_drop, take_append_drop]
  · rw [set_eq_take_append_cons_drop, if_pos hi]

theorem countP_set (p : α → Bool) (h : l[i]? = some a) (b : α) :
    (l.set i b).countP p + (p a).toNat = l.countP p + (p b).toNat := by
  obtain ⟨before, after, hl, -, hset⟩ := exists_split h
  rw [hset, hl, countP_append, countP_append, countP_cons, countP_cons]
  cases p a <;> cases p b <;> simp [add_assoc]

theorem countP_eraseIdx (p : α → Bool) (h : l[i]? = some a) :
    (l.eraseIdx i).countP p + (p a).toNat = l.countP p := by
  obtain ⟨before, after, hl, herase, -⟩ := exists_split h
  rw [herase, hl, countP_append, countP_append, countP_cons]
  cases p a <;> simp [add_assoc]

theorem sum_range_le {f : Nat → Nat} (n : Nat) (h : ∀ i, f i ≤ 1) :
    ∑ i ∈ Finset.range n, f i ≤ n := by
  calc ∑ i ∈ Finset.range n, f i
      ≤ ∑ _i ∈ Finset.range n, 1 := Finset.sum_le_sum fun i _ => h i
    _ = n := by simp

theorem sum_range_change {f g : Nat → Nat} {n : Nat} (hi : i < n) (h : ∀ j, j ≠ i → g j = f j) :
    ∑ j ∈ Finset.range n, g j + f i = ∑ j ∈ Finset.range n, f j + g i := by
  have hmem : i ∈ Finset.range n := Finset.mem_range.mpr hi
  have hother : ∑ j ∈ (Finset.range n).erase i, g j = ∑ j ∈ (Finset.range n).erase i, f j :=
    Finset.sum_congr rfl fun j hj => h j (Finset.ne_of_mem_erase hj)
  rw [← Finset.add_sum_erase _ _ hmem, ← Finset.add_sum_erase _ f hmem, hother]
  omega

/-- What is read off the parts is as before when one part is replaced by one that reads
the same. -/
theorem map_set_eq {β : Type*} {f : α → β} (h : l[i]? = some a) {b : α} (hf : f b = f a) :
    (l.set i b).map f = l.map f := by
  obtain ⟨before, after, hl, -, hset⟩ := exists_split h
  rw [hset, hl, map_append, map_append, map_cons, map_cons, hf]

theorem sum_map_set {M : Type*} [AddCommGroup M] (f : α → M) (h : l[i]? = some a) (b : α) :
    ((l.set i b).map f).sum = (l.map f).sum + (f b - f a) := by
  obtain ⟨before, after, hl, -, hset⟩ := exists_split h
  rw [hset, hl]
  simp only [map_append, map_cons, sum_append, sum_cons]
  abel

theorem sum_map_eraseIdx {M : Type*} [AddCommGroup M] (f : α → M) (h : l[i]? = some a) :
    ((l.eraseIdx i).map f).sum = (l.map f).sum - f a := by
  obtain ⟨before, after, hl, herase, -⟩ := exists_split h
  rw [herase, hl]
  simp only [map_append, map_cons, sum_append, sum_cons]
  abel

theorem mem_eraseIdx_of_ne (h : l[i]? = some a) {b : α} (hb : b ∈ l) (hne : b ≠ a) :
    b ∈ l.eraseIdx i := by
  obtain ⟨before, after, hl, herase, -⟩ := exists_split h
  rw [herase]
  rw [hl] at hb
  simp only [mem_append, mem_cons] at hb ⊢
  tauto

theorem mem_set_of_ne (h : l[i]? = some a) {b : α} (hb : b ∈ l) (hne : b ≠ a) (c : α) :
    b ∈ l.set i c := by
  obtain ⟨before, after, hl, -, hset⟩ := exists_split h
  rw [hset]
  rw [hl] at hb
  simp only [mem_append, mem_cons] at hb ⊢
  tauto

theorem flatMap_perm {β : Type*} (f : α → List β) (h : l[i]? = some a) :
    (l.flatMap f).Perm (f a ++ (l.eraseIdx i).flatMap f) := by
  obtain ⟨before, after, hl, herase, -⟩ := exists_split h
  rw [herase, hl, flatMap_append, flatMap_append, flatMap_cons]
  exact perm_append_comm_assoc _ _ _

theorem flatMap_set_perm {β : Type*} (f : α → List β) (h : l[i]? = some a) (b : α) :
    ((l.set i b).flatMap f).Perm (f b ++ (l.eraseIdx i).flatMap f) := by
  obtain ⟨before, after, -, herase, hset⟩ := exists_split h
  rw [herase, hset, flatMap_append, flatMap_append, flatMap_cons]
  exact perm_append_comm_assoc _ _ _

open scoped List in
/-- A property of some part is kept when a part is replaced by one that has it if the old
one does. -/
theorem exists_mem_set {P : α → Prop} (h : l[i]? = some a) {b : α} (hab : P a → P b)
    (hP : ∃ c ∈ l, P c) : ∃ c ∈ l.set i b, P c := by
  obtain ⟨before, after, hl, -, hset⟩ := exists_split h
  obtain ⟨c, hc, hPc⟩ := hP
  rw [hset]
  rw [hl, mem_append, mem_cons] at hc
  obtain hc | rfl | hc := hc
  · exact ⟨c, mem_append_left _ hc, hPc⟩
  · exact ⟨b, mem_append_right _ mem_cons_self, hab hPc⟩
  · exact ⟨c, mem_append_right _ (mem_cons_of_mem _ hc), hPc⟩

end OneTbb.Positions
