import Mathlib.Algebra.BigOperators.Group.List.Basic
import Mathlib.Algebra.Order.Ring.Nat
import Mathlib.Data.List.Nodup

/-!
# Ledgers

A ledger keeps an account under each key and a list of the keys that are open.
A weight says what an account counts for. The lemmas say what writing an
account, opening one and closing one does to the total weight of the open ones.
-/

namespace OneTbb.Ledger

open List Function

variable {K α : Type*} [DecidableEq K] {w : α → Nat} {accounts : K → α} {keys : List K} {k : K}

/-- The total weight of the open accounts. -/
def total (w : α → Nat) (accounts : K → α) (keys : List K) : Nat :=
  (keys.map fun k => w (accounts k)).sum

omit [DecidableEq K] in
@[simp] theorem total_cons : total w accounts (k :: keys) = w (accounts k) + total w accounts keys :=
  sum_cons

omit [DecidableEq K] in
theorem total_append (keys' : List K) :
    total w accounts (keys ++ keys') = total w accounts keys + total w accounts keys' := by
  unfold total
  rw [map_append, sum_append]

omit [DecidableEq K] in
theorem total_congr {accounts' : K → α} {w' : α → Nat}
    (h : ∀ k ∈ keys, w (accounts k) = w' (accounts' k)) :
    total w accounts keys = total w' accounts' keys := by
  unfold total
  rw [map_congr_left h]

omit [DecidableEq K] in
theorem total_perm {keys' : List K} (h : keys.Perm keys') :
    total w accounts keys = total w accounts keys' :=
  (h.map _).sum_eq

theorem total_update_of_notMem {a : α} (h : k ∉ keys) :
    total w (update accounts k a) keys = total w accounts keys := by
  apply total_congr
  intro k' hk'
  have hne : k' ≠ k := fun e => h (e ▸ hk')
  rw [update_of_ne hne]

theorem total_update (a : α) (hk : k ∈ keys) (hn : keys.Nodup) :
    total w (update accounts k a) keys + w (accounts k) = total w accounts keys + w a := by
  induction keys with
  | nil => cases hk
  | cons k' rest ih =>
    obtain ⟨hk', hrest⟩ := nodup_cons.mp hn
    rw [total_cons, total_cons]
    obtain rfl | hmem := mem_cons.mp hk
    · rw [update_self, total_update_of_notMem hk']
      omega
    · have hne : k' ≠ k := fun e => hk' (e ▸ hmem)
      have := ih hmem hrest
      rw [update_of_ne hne]
      omega

omit [DecidableEq K] in
theorem le_total (hk : k ∈ keys) : w (accounts k) ≤ total w accounts keys := by
  induction keys with
  | nil => cases hk
  | cons k' rest ih =>
    rw [total_cons]
    obtain rfl | hmem := mem_cons.mp hk
    · exact Nat.le_add_right _ _
    · exact (ih hmem).trans (Nat.le_add_left _ _)

theorem total_filter_notMem {closed : List K} (hkeys : keys.Nodup) (hclosed : closed.Nodup)
    (hsub : ∀ k ∈ closed, k ∈ keys) :
    total w accounts (keys.filter (· ∉ closed)) + total w accounts closed =
      total w accounts keys := by
  have hperm : (keys.filter (· ∉ closed) ++ closed).Perm keys := by
    apply (perm_ext_iff_of_nodup ?_ hkeys).mpr
    · intro k
      simp only [mem_append, mem_filter, decide_eq_true_eq]
      constructor
      · rintro (⟨hk, _⟩ | hk)
        · exact hk
        · exact hsub k hk
      · intro hk
        by_cases hmem : k ∈ closed
        · exact .inr hmem
        · exact .inl ⟨hk, hmem⟩
    · apply List.Nodup.append (hkeys.filter _) hclosed
      intro k hk hk'
      exact of_decide_eq_true (mem_filter.mp hk).2 hk'
  rw [← total_append, total_perm hperm]

omit [DecidableEq K] in
theorem total_filter_of_zero {keep : K → Bool}
    (hzero : ∀ k ∈ keys, keep k = false → w (accounts k) = 0) :
    total w accounts (keys.filter keep) = total w accounts keys := by
  induction keys with
  | nil => rfl
  | cons k rest ih =>
    have hrest := ih fun k' hk' => hzero k' (mem_cons_of_mem k hk')
    cases hk : keep k with
    | true => rw [filter_cons_of_pos hk, total_cons, total_cons, hrest]
    | false =>
      have hnone := hzero k mem_cons_self hk
      rw [filter_cons_of_neg (Bool.eq_false_iff.mp hk), total_cons, hnone, hrest,
        Nat.zero_add]

end OneTbb.Ledger
