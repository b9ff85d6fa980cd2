import Mathlib.Logic.Equiv.Basic
import Mathlib.Data.List.Perm.Basic
import Mathlib.Data.List.Range
import Mathlib.Data.List.Nodup

/-!
# Rearranging segments of a sequence

A random access sequence is a function on positions. Algorithms rearrange it
inside a segment `lo ≤ i < hi`, and what they promise about the result is
stated for that segment: it is sorted, or it is partitioned by a predicate.
-/

namespace OneTbb.Segment

variable {α : Type*}

/-- A strict weak order, as a comparator answers it. -/
structure StrictWeak (comp : α → α → Bool) : Prop where
  irrefl : ∀ a, comp a a = false
  trans : ∀ {a b c}, comp a b = true → comp b c = true → comp a c = true
  incomp_trans : ∀ {a b c}, comp a b = false → comp b a = false → comp b c = false →
    comp c b = false → comp a c = false

theorem StrictWeak.neg_trans {comp : α → α → Bool} (h : StrictWeak comp) {a b c : α}
    (hab : comp a b = false) (hbc : comp b c = false) : comp a c = false := by
  cases hba : comp b a with
  | true =>
    refine Bool.eq_false_iff.mpr fun hac => ?_
    simp [h.trans hba hac] at hbc
  | false =>
    cases hcb : comp c b with
    | true =>
      refine Bool.eq_false_iff.mpr fun hac => ?_
      simp [h.trans hac hcb] at hab
    | false => exact h.incomp_trans hab hba hbc hcb

theorem strictWeak_lt : StrictWeak fun a b : Nat => decide (a < b) where
  irrefl := by simp
  trans := by
    intro a b c
    simp only [decide_eq_true_eq]
    omega
  incomp_trans := by
    intro a b c
    simp only [decide_eq_false_iff_not, not_lt]
    omega

/-- `a'` is a rearrangement of `a` that moves only elements at the positions of `S`. -/
def Rearranged (S : Nat → Prop) (a a' : Nat → α) : Prop :=
  ∃ σ : Equiv.Perm Nat, (∀ i, ¬ S i → σ i = i) ∧ a' = a ∘ σ

namespace Rearranged

variable {S S' : Nat → Prop} {a a' a'' : Nat → α}

theorem refl (S : Nat → Prop) (a : Nat → α) : Rearranged S a a :=
  ⟨Equiv.refl Nat, fun _ _ => rfl, rfl⟩

theorem trans (h : Rearranged S a a') (h' : Rearranged S a' a'') : Rearranged S a a'' := by
  obtain ⟨σ, hσ, rfl⟩ := h
  obtain ⟨τ, hτ, rfl⟩ := h'
  refine ⟨τ.trans σ, fun i hi => ?_, rfl⟩
  rw [Equiv.trans_apply, hτ i hi, hσ i hi]

theorem mono (h : Rearranged S a a') (hS : ∀ i, S i → S' i) : Rearranged S' a a' := by
  obtain ⟨σ, hσ, rfl⟩ := h
  exact ⟨σ, fun i hi => hσ i fun hSi => hi (hS i hSi), rfl⟩

theorem outside (h : Rearranged S a a') {i : Nat} (hout : ¬ S i) : a' i = a i := by
  obtain ⟨σ, hσ, rfl⟩ := h
  rw [Function.comp_apply, hσ i hout]

/-- `iter_swap` moves the elements at two positions. -/
theorem swap (a : Nat → α) {i j : Nat} (hi : S i) (hj : S j) :
    Rearranged S a (a ∘ Equiv.swap i j) := by
  refine ⟨Equiv.swap i j, fun k hk => Equiv.swap_apply_of_ne_of_ne ?_ ?_, rfl⟩
  · rintro rfl
    exact hk hi
  · rintro rfl
    exact hk hj

end Rearranged

/-- `a'` is a rearrangement of `a` inside the segment. -/
def PermOn (lo hi : Nat) (a a' : Nat → α) : Prop :=
  ∃ σ : Equiv.Perm Nat, (∀ i, ¬ (lo ≤ i ∧ i < hi) → σ i = i) ∧ a' = a ∘ σ

variable {lo hi : Nat} {a a' a'' : Nat → α}

theorem PermOn.refl (lo hi : Nat) (a : Nat → α) : PermOn lo hi a a := Rearranged.refl _ a

theorem PermOn.trans (h : PermOn lo hi a a') (h' : PermOn lo hi a' a'') :
    PermOn lo hi a a'' := Rearranged.trans h h'

theorem PermOn.mono {lo' hi' : Nat} (h : PermOn lo hi a a') (hlo : lo' ≤ lo) (hhi : hi ≤ hi') :
    PermOn lo' hi' a a' := Rearranged.mono h fun _ hi => by omega

/-- `iter_swap` rearranges every segment that contains both positions. -/
theorem PermOn.swap (a : Nat → α) {i j : Nat} (hi' : lo ≤ i ∧ i < hi)
    (hj' : lo ≤ j ∧ j < hi) :
    PermOn lo hi a (a ∘ Equiv.swap i j) := Rearranged.swap a hi' hj'

theorem PermOn.outside (h : PermOn lo hi a a') {i : Nat} (hout : ¬ (lo ≤ i ∧ i < hi)) :
    a' i = a i := Rearranged.outside h hout

theorem PermOn.inside (h : PermOn lo hi a a') {i : Nat} (hin : lo ≤ i ∧ i < hi) :
    ∃ j, (lo ≤ j ∧ j < hi) ∧ a' i = a j := by
  obtain ⟨σ, hσ, rfl⟩ := h
  refine ⟨σ i, ?_, rfl⟩
  by_contra hout
  exact hout ((σ.injective (hσ _ hout)).symm ▸ hin)

theorem PermOn.perm {n : Nat} (h : PermOn 0 n a a') :
    ((List.range n).map a').Perm ((List.range n).map a) := by
  obtain ⟨σ, hσ, rfl⟩ := h
  rw [← List.map_map]
  refine List.Perm.map a ((List.perm_ext_iff_of_nodup ?_ List.nodup_range).mpr fun i => ?_)
  · exact List.nodup_range.map σ.injective
  · simp only [List.mem_map, List.mem_range]
    constructor
    · rintro ⟨j, hj, rfl⟩
      by_contra hout
      have hfix := hσ (σ j) (by omega)
      rw [σ.injective hfix] at hout
      exact hout hj
    · intro hi
      refine ⟨σ.symm i, ?_, σ.apply_symm_apply i⟩
      by_contra hout
      have hfix := hσ (σ.symm i) (by omega)
      rw [σ.apply_symm_apply] at hfix
      exact hout (hfix ▸ hi)

/-- No element of the segment belongs before an earlier one. -/
def SortedOn (comp : α → α → Bool) (lo hi : Nat) (a : Nat → α) : Prop :=
  ∀ i j, lo ≤ i → i < j → j < hi → comp (a j) (a i) = false

/-- The elements that satisfy `p` come first and end at `mid`. -/
structure PartitionedOn (p : α → Bool) (lo mid hi : Nat) (a : Nat → α) : Prop where
  lo_le : lo ≤ mid
  le_hi : mid ≤ hi
  true_of_lt : ∀ i, lo ≤ i → i < mid → p (a i) = true
  false_of_le : ∀ i, mid ≤ i → i < hi → p (a i) = false

/-- Neighbours in order put the whole segment in order. -/
theorem sortedOn_of_neighbours {comp : α → α → Bool} (h : StrictWeak comp)
    (hn : ∀ k, lo < k → k < hi → comp (a k) (a (k - 1)) = false) : SortedOn comp lo hi a := by
  intro i j hi hij hj
  induction j, hij using Nat.le_induction with
  | base => exact hn (i + 1) (by omega) hj
  | succ j hij ih =>
    exact h.neg_trans (hn (j + 1) (by omega) hj) (ih (by omega))

theorem exists_partitionedOn (p : α → Bool) (a : Nat → α) {lo hi : Nat} (h : lo ≤ hi) :
    ∃ a' mid, PermOn lo hi a a' ∧ PartitionedOn p lo mid hi a' := by
  -- the last element either stays or changes places with the first false one
  induction hi, h using Nat.le_induction with
  | base => exact ⟨a, lo, PermOn.refl _ _ _, le_rfl, le_rfl, by omega, by omega⟩
  | succ hi h ih =>
    obtain ⟨a', mid, hperm, hpart⟩ := ih
    have hperm' := hperm.mono le_rfl (Nat.le_succ hi)
    have hmid := hpart.le_hi
    have hlo := hpart.lo_le
    cases hp : p (a' hi) with
    | false =>
      refine ⟨a', mid, hperm', hlo, by omega, hpart.true_of_lt, fun i h₁ h₂ => ?_⟩
      rcases Nat.lt_succ_iff_lt_or_eq.mp h₂ with h₂ | rfl
      · exact hpart.false_of_le i h₁ h₂
      · exact hp
    | true =>
      refine ⟨a' ∘ Equiv.swap mid hi, mid + 1,
        hperm'.trans (PermOn.swap a' ⟨hlo, by omega⟩ ⟨h, Nat.lt_succ_self hi⟩), by omega, by omega,
        fun i h₁ h₂ => ?_, fun i h₁ h₂ => ?_⟩
      · rcases Nat.lt_succ_iff_lt_or_eq.mp h₂ with h₂ | rfl
        · rw [Function.comp_apply, Equiv.swap_apply_of_ne_of_ne (by omega) (by omega)]
          exact hpart.true_of_lt i h₁ h₂
        · rw [Function.comp_apply, Equiv.swap_apply_left]
          exact hp
      · rcases Nat.lt_succ_iff_lt_or_eq.mp h₂ with h₂ | rfl
        · rw [Function.comp_apply, Equiv.swap_apply_of_ne_of_ne (by omega) (by omega)]
          exact hpart.false_of_le i (by omega) h₂
        · rw [Function.comp_apply, Equiv.swap_apply_right]
          exact hpart.false_of_le mid le_rfl (by omega)

theorem exists_least {comp : α → α → Bool} (h : StrictWeak comp) (a : Nat → α) {lo hi : Nat}
    (hlt : lo < hi) : ∃ k, (lo ≤ k ∧ k < hi) ∧ ∀ i, lo ≤ i → i < hi → comp (a i) (a k) = false := by
  induction hi, hlt using Nat.le_induction with
  | base =>
    refine ⟨lo, by omega, fun i h₁ h₂ => ?_⟩
    obtain rfl : i = lo := by omega
    exact h.irrefl _
  | succ hi hlt ih =>
    obtain ⟨k, hk, hmin⟩ := ih
    cases hc : comp (a hi) (a k) with
    | false =>
      refine ⟨k, by omega, fun i h₁ h₂ => ?_⟩
      rcases Nat.lt_succ_iff_lt_or_eq.mp h₂ with h₂ | rfl
      · exact hmin i h₁ h₂
      · exact hc
    | true =>
      refine ⟨hi, by omega, fun i h₁ h₂ => ?_⟩
      rcases Nat.lt_succ_iff_lt_or_eq.mp h₂ with h₂ | rfl
      · refine Bool.eq_false_iff.mpr fun hlt' => ?_
        simpa [h.trans hlt' hc] using hmin i h₁ h₂
      · exact h.irrefl _

theorem exists_sortedOn {comp : α → α → Bool} (h : StrictWeak comp) (a : Nat → α) (lo hi : Nat) :
    ∃ a', PermOn lo hi a a' ∧ SortedOn comp lo hi a' := by
  -- selection sort: the least element goes first
  induction hn : hi - lo generalizing lo a with
  | zero => exact ⟨a, PermOn.refl _ _ _, fun i j _ _ _ => by omega⟩
  | succ n ih =>
    obtain ⟨k, hk, hmin⟩ := exists_least h a (show lo < hi by omega)
    obtain ⟨a', hperm, hsort⟩ := ih (a ∘ Equiv.swap lo k) (lo + 1) (by omega)
    have hswap := PermOn.swap a (show lo ≤ lo ∧ lo < hi by omega) hk
    refine ⟨a', hswap.trans (hperm.mono (Nat.le_succ lo) le_rfl), fun i j h₁ h₂ h₃ => ?_⟩
    rcases eq_or_lt_of_le h₁ with rfl | h₁
    · obtain ⟨j', hj', hja⟩ := hperm.inside (show lo + 1 ≤ j ∧ j < hi by omega)
      obtain ⟨j'', hj'', hjb⟩ := hswap.inside (show lo ≤ j' ∧ j' < hi by omega)
      rw [hja, hjb, hperm.outside (by omega), Function.comp_apply, Equiv.swap_apply_left]
      exact hmin j'' hj''.1 hj''.2
    · exact hsort i j h₁ h₂ h₃

end OneTbb.Segment
