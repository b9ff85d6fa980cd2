import Mathlib.Algebra.Order.Ring.Int
import OneTbb.Tcm.Balance
import OneTbb.Tcm.SingleConstraint

/-!
# Thread composability manager: lists of changes

What the stakeholders are made to give up adds up to what has to be negotiated, and
changes of different permits do not get into each other's way.
-/

namespace OneTbb.Tcm

open List State Function PermitChange

variable {P : Platform} {initiator : Option Handle} {first : Bool}

/-! ## Shares -/

theorem shares_le {n : Nat} {queue : List Stakeholder} :
    ∀ share ∈ shares n queue, share.2 ≤ share.1.numNegotiable := by
  induction queue generalizing n with
  | nil =>
    intro share hshare
    cases hshare
  | cons s rest ih =>
    intro share hshare
    unfold shares at hshare
    split at hshare
    · cases hshare
    · obtain rfl | hshare := mem_cons.mp hshare
      · exact Nat.min_le_right _ _
      · exact ih share hshare

/-- Enough is found, or everybody has given everything. -/
theorem sum_shares (n : Nat) (queue : List Stakeholder) :
    ((shares n queue).map Prod.snd).sum = min n (totalNegotiable queue) := by
  induction queue generalizing n with
  | nil => exact (Nat.min_zero n).symm
  | cons s rest ih =>
    have htotal : totalNegotiable (s :: rest) = s.numNegotiable + totalNegotiable rest :=
      sum_cons
    unfold shares
    split
    · rename_i hn
      rw [hn, Nat.zero_min]
      rfl
    · rw [map_cons, sum_cons, ih, htotal]
      omega

theorem totalNegotiable_perm {xs ys : List Stakeholder} (h : xs.Perm ys) :
    totalNegotiable xs = totalNegotiable ys := (h.map _).sum_eq

theorem totalNegotiable_append (xs ys : List Stakeholder) :
    totalNegotiable (xs ++ ys) = totalNegotiable xs + totalNegotiable ys := by
  unfold totalNegotiable
  rw [map_append, sum_append]

/-! ## Merging -/

theorem equalRange_singleton (c : PermitChange) : P.equalRange [c] = [c] :=
  perm_singleton.mp (P.equalRange_perm [c])

variable {cs : List PermitChange} {acc : State × Int}

theorem filter_handle_eq {cs : List PermitChange} (hn : (cs.map handle).Nodup)
    {c : PermitChange} (hc : c ∈ cs) : cs.filter (·.handle = c.handle) = [c] := by
  induction cs with
  | nil => cases hc
  | cons d rest ih =>
    rw [map_cons, nodup_cons] at hn
    obtain rfl | hc := mem_cons.mp hc
    · have hrest : rest.filter (·.handle = c.handle) = [] := by
        apply filter_eq_nil_iff.mpr
        intro e he heq
        exact hn.1 (of_decide_eq_true heq ▸ mem_map_of_mem he)
      rw [filter_cons_of_pos (by simp), hrest]
    · have hne : ¬ d.handle = c.handle := fun e => hn.1 (e ▸ mem_map_of_mem hc)
      rw [filter_cons_of_neg (by simpa using hne)]
      exact ih hn.2 hc

theorem mergeChanges_of_nodup
    (hn : (cs.map handle).Nodup) : mergeChanges P cs = cs := by
  unfold mergeChanges
  rw [hn.dedup, filterMap_map]
  have hsome : ∀ c ∈ cs, (mergeGroup P cs ∘ handle) c = some c := by
    intro c hc
    rw [comp_apply]
    unfold mergeGroup
    rw [filter_handle_eq hn hc, equalRange_singleton]
    rfl
  rw [filterMap_congr hsome, filterMap_some]

/-! ## Changes of different permits -/

theorem foldl_applyChange_rep_of_notMem {k : Handle} (hk : k ∉ cs.map handle) :
    (cs.foldl (applyChange initiator first) acc).1.rep k = acc.1.rep k := by
  induction cs generalizing acc with
  | nil => rfl
  | cons c rest ih =>
    rw [map_cons, mem_cons, not_or] at hk
    rw [foldl_cons, ih hk.2, applyChange_rep, update_of_ne hk.1]

theorem foldl_applyChange_rep
    (hn : (cs.map handle).Nodup) {c : PermitChange} (hc : c ∈ cs) :
    (cs.foldl (applyChange initiator first) acc).1.rep c.handle =
      (acc.1.rep c.handle).updated c := by
  induction cs generalizing acc with
  | nil => cases hc
  | cons d rest ih =>
    rw [map_cons, nodup_cons] at hn
    rw [foldl_cons]
    obtain rfl | hc := mem_cons.mp hc
    · rw [foldl_applyChange_rep_of_notMem hn.1, applyChange_rep, update_self]
    · have hne : c.handle ≠ d.handle := fun e => hn.1 (e ▸ mem_map_of_mem hc)
      rw [ih hn.2 hc, applyChange_rep, update_of_ne hne]

/-- What a change gives back, in the state before all changes. -/
def State.givenBack (st : State) (c : PermitChange) : Int :=
  (storeConcurrencies (st.rep c.handle).concurrency c.newConcurrencies).2

theorem foldl_applyChange_delta (hn : (cs.map handle).Nodup) :
    (cs.foldl (applyChange initiator first) acc).2 =
      acc.2 + (cs.map acc.1.givenBack).sum := by
  induction cs generalizing acc with
  | nil => exact (Int.add_zero _).symm
  | cons c rest ih =>
    rw [map_cons, nodup_cons] at hn
    have hrest : rest.map (applyChange initiator first acc c).1.givenBack =
        rest.map acc.1.givenBack := by
      apply map_congr_left
      intro d hd
      have hne : d.handle ≠ c.handle := fun e => hn.1 (e ▸ mem_map_of_mem hd)
      unfold givenBack
      rw [applyChange_rep, update_of_ne hne]
    rw [foldl_cons, ih hn.2, hrest, map_cons, sum_cons]
    change acc.2 + acc.1.givenBack c + _ = _
    omega

theorem applyChange_wrapped (acc : State × Int) (c : PermitChange) :
    (applyChange initiator first acc c).1.wrapped = (acc.1.wrapped || c.underflow) := by
  simp only [applyChange, addPermit_wrapped]
  split
  · simp [setPermit]
  · simp [setPermit]

theorem applyChange_availableConcurrency (acc : State × Int) (c : PermitChange) :
    (applyChange initiator first acc c).1.availableConcurrency =
      acc.1.availableConcurrency := by
  simp only [applyChange, addPermit_availableConcurrency]
  split
  · simp [setPermit]
  · simp [setPermit]

theorem foldl_applyChange_availableConcurrency (cs : List PermitChange) (acc : State × Int) :
    (cs.foldl (applyChange initiator first) acc).1.availableConcurrency =
      acc.1.availableConcurrency := by
  induction cs generalizing acc with
  | nil => rfl
  | cons c rest ih => rw [foldl_cons, ih, applyChange_availableConcurrency]

theorem foldl_applyChange_wrapped
    (hw : acc.1.wrapped = false) (hcs : ∀ c ∈ cs, c.underflow = false) :
    (cs.foldl (applyChange initiator first) acc).1.wrapped = false := by
  induction cs generalizing acc with
  | nil => exact hw
  | cons c rest ih =>
    apply ih
    · rw [applyChange_wrapped, hw, hcs c mem_cons_self]
      rfl
    · intro d hd
      exact hcs d (mem_cons_of_mem c hd)

/-- Nothing wraps when the changes hand out no more than they take back and what is
available. -/
theorem apply_wrapped {st : State} (hb : Balanced P 0 st)
    (hw : st.wrapped = false) (halloc : st.allocated.Nodup)
    (hal : ∀ c ∈ cs, c.handle ∈ st.allocated) (hn : (cs.map handle).Nodup)
    (hunder : ∀ c ∈ cs, c.underflow = false)
    (hcover : 0 ≤ (st.availableConcurrency : Int) + (cs.map st.givenBack).sum) :
    (st.apply cs initiator first).wrapped = false := by
  have hfold : Balanced P (cs.foldl (applyChange initiator first) (st, 0)).2
      (cs.foldl (applyChange initiator first) (st, 0)).1 :=
    Balanced.foldl_applyChange hb hal halloc
  have hwrapped : (cs.foldl (applyChange initiator first) (st, 0)).1.wrapped = false :=
    foldl_applyChange_wrapped hw hunder
  have hexact := hfold.exact hwrapped
  have hlt := P.platformResources_lt
  have hdelta : (cs.foldl (applyChange initiator first) (st, 0)).2 =
      0 + (cs.map st.givenBack).sum := foldl_applyChange_delta hn
  rw [foldl_applyChange_availableConcurrency] at hexact
  change (_ || decide _) = false
  rw [hwrapped, Bool.false_or, decide_eq_false_iff_not, foldl_applyChange_availableConcurrency]
  simp only at hexact ⊢
  omega

end OneTbb.Tcm
