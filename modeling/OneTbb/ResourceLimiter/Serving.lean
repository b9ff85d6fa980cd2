import OneTbb.ResourceLimiter.Limiter

/-!
# What a limiter does to its lists

The lists matter only up to the order of their elements. `Limiter.Fair` is the
property that keeps requests from being stranded: a pending request has at least
as many notified ones before it as there are handles in the pool.
-/

namespace OneTbb.ResourceLimiter

open List Limiter

open Selection Segment

variable {H : Type} {l l' : Limiter H} {x : ConsumerData}

/-! ## The order of the requests -/

theorem lt_iff (a b : RequestId) : a.lt b = true ↔ b.priority < a.priority ∨
    a.priority = b.priority ∧ (a.timePoint < b.timePoint ∨
      a.timePoint = b.timePoint ∧ a.uniqueInteger < b.uniqueInteger) := by
  unfold RequestId.lt
  by_cases hp : a.priority = b.priority
  · by_cases ht : a.timePoint = b.timePoint <;> simp [hp, ht]
  · simp [hp]

theorem strictWeak_lt : StrictWeak RequestId.lt where
  irrefl := by
    intro a
    rw [Bool.eq_false_iff, ne_eq, lt_iff]
    omega
  trans := by
    intro a b c hab hbc
    rw [lt_iff] at hab hbc ⊢
    omega
  incomp_trans := by
    intro a b c hab hba hbc hcb
    rw [Bool.eq_false_iff, ne_eq, lt_iff] at hab hba hbc hcb ⊢
    omega

theorem strictWeak_higherPriorityFirst : StrictWeak higherPriorityFirst where
  irrefl := fun a => strictWeak_lt.irrefl a.id
  trans := fun hab hbc => strictWeak_lt.trans hab hbc
  incomp_trans := fun hab hba hbc hcb => strictWeak_lt.incomp_trans hab hba hbc hcb

/-- Pending requests are preceded by as many notified ones as there are handles. -/
def Limiter.Fair (l : Limiter H) : Prop :=
  ∀ x ∈ l.pending, l.resourceHandles.length ≤ l.notified.countP (higherPriorityFirst · x)

theorem fair_of_no_handle (h : l.resourceHandles.length = 0) : l.Fair := by
  intro x _
  rw [h]
  exact Nat.zero_le _

variable (std : OrderAlgorithms higherPriorityFirst)

theorem selectLowestPriorityToServe_perm (n : Nat) (notified : List ConsumerData)
    (x : ConsumerData) :
    (selectLowestPriorityToServe std n notified x).1.Perm notified :=
  std.nthElement_perm _ _

variable {notified : List ConsumerData}

/-- A request below the threshold has enough notified ones before it. -/
theorem selectLowestPriorityToServe_below {n : Nat}
    (h : (selectLowestPriorityToServe std n notified x).2 = true) :
    n ≤ notified.countP (higherPriorityFirst · x) := by
  simp only [selectLowestPriorityToServe, belowThreshold] at h
  split at h
  · rename_i threshold ht
    have hcount := le_countP_of_least strictWeak_higherPriorityFirst ht
      (fun i y hi hy => std.nthElement_least _ _ _ ht i y hi hy) h
    rw [(std.nthElement_perm _ _).countP_eq] at hcount
    omega
  · cases h

/-! ## `request` -/

/-- What `request` does. -/
structure RequestSpec (l : Limiter H) (x : ConsumerData) (l' : Limiter H) (notify : Bool) :
    Prop where
  handles : l'.resourceHandles = l.resourceHandles
  pending : l'.pending = if notify then l.pending else l.pending ++ [x]
  notified : l'.notified.Perm (if notify then l.notified ++ [x] else l.notified)
  fair : l.Fair → l'.Fair

theorem fair_concat_notified (h : l.Fair)
    (hn : notified.Perm l.notified) : { l with notified := notified ++ [x] }.Fair := by
  intro y hy
  apply le_trans (h y hy)
  simp only [countP_append, hn.countP_eq]
  exact Nat.le_add_right _ _

theorem Limiter.request_spec (l : Limiter H) (x : ConsumerData) :
    RequestSpec l x (l.request std x).1 (l.request std x).2 := by
  unfold request
  split
  · rename_i hzero
    exact ⟨rfl, rfl, Perm.refl _, fun _ => fair_of_no_handle hzero⟩
  · split
    · have hperm := selectLowestPriorityToServe_perm std l.resourceHandles.length l.notified x
      simp only
      split
      · rename_i hbelow
        refine ⟨rfl, rfl, hperm, fun hfair y hy => ?_⟩
        simp only
        rw [hperm.countP_eq]
        obtain hy | hy := mem_append.mp hy
        · exact hfair y hy
        · rw [mem_singleton.mp hy]
          exact selectLowestPriorityToServe_below std hbelow
      · exact ⟨rfl, rfl, hperm.append_right _, fun hfair => fair_concat_notified hfair hperm⟩
    · exact ⟨rfl, rfl, Perm.refl _,
        fun hfair => fair_concat_notified hfair (Perm.refl _)⟩

/-! ## `acquire` -/

theorem same_self (x : ConsumerData) : x.same x = true := by
  simp [ConsumerData.same]

/-- Removing a request that no other one of the list is the same as. -/
theorem perm_cons_eraseP {list : List ConsumerData} (hx : x ∈ list)
    (hsame : ∀ y ∈ list, y.same x = true → y = x) :
    list.Perm (x :: list.eraseP (·.same x)) := by
  obtain ⟨a, l₁, l₂, _, ha, hlist, herase⟩ := exists_of_eraseP (p := (·.same x)) hx (same_self x)
  obtain rfl : a = x := hsame a (by rw [hlist]; simp) ha
  rw [herase]
  nth_rewrite 1 [hlist]
  exact perm_middle

/-- What `acquire` does for a request that is notified. -/
structure AcquireSpec (l : Limiter H) (x : ConsumerData) (l' : Limiter H) (handle : Option H) :
    Prop where
  handles : l.resourceHandles = handle.toList ++ l'.resourceHandles
  pending : l'.pending = l.pending
  notified : l.notified.Perm (x :: l'.notified)
  fair : l.Fair → l'.Fair

/-- A handle is taken for a request that is no longer notified. -/
theorem AcquireSpec.extract (hpos : l.resourceHandles.length ≠ 0)
    (hn : l.notified.Perm (x :: notified)) :
    AcquireSpec l x ({ l with notified := notified }.extractHandle).1
      ({ l with notified := notified }.extractHandle).2 := by
  cases hh : l.resourceHandles with
  | nil => simp [hh] at hpos
  | cons h rest =>
    refine ⟨hh, rfl, hn, fun hfair y hy => ?_⟩
    have hcount := hfair y hy
    rw [hn.countP_eq, countP_cons, hh, length_cons] at hcount
    change rest.length ≤ notified.countP (higherPriorityFirst · y)
    split at hcount <;> omega

theorem AcquireSpec.deny (hn : l.notified.Perm (x :: notified))
    (hcount : l.resourceHandles.length ≤ notified.countP (higherPriorityFirst · x)) :
    AcquireSpec l x { l with notified := notified } none := by
  refine ⟨rfl, rfl, hn, fun hfair y hy => ?_⟩
  have hold := hfair y hy
  rw [hn.countP_eq, countP_cons] at hold
  split at hold
  · rename_i hxy
    -- what comes before the request that is denied comes before those after it
    apply le_trans hcount
    exact countP_mono_left fun z _ hzx => strictWeak_higherPriorityFirst.trans hzx hxy
  · exact hold

theorem Limiter.acquire_spec (hx : x ∈ l.notified)
    (hsame : ∀ y ∈ l.notified, y.same x = true → y = x) :
    AcquireSpec l x (l.acquire std x).1 (l.acquire std x).2 := by
  have hperm := perm_cons_eraseP hx hsame
  have hany : l.notified.any (·.same x) = true :=
    any_eq_true.mpr ⟨x, hx, same_self x⟩
  unfold acquire
  simp only [hany, Bool.not_true, Bool.or_false, decide_eq_true_eq]
  split
  · rename_i hzero
    exact AcquireSpec.deny hperm (by rw [hzero]; exact Nat.zero_le _)
  · rename_i hpos
    split
    · have hsel := selectLowestPriorityToServe_perm std l.resourceHandles.length
        (l.notified.eraseP (·.same x)) x
      have hperm' := hperm.trans (hsel.symm.cons x)
      split
      · rename_i hbelow
        refine AcquireSpec.deny hperm' ?_
        rw [hsel.countP_eq]
        exact selectLowestPriorityToServe_below std hbelow
      · exact AcquireSpec.extract hpos hperm'
    · exact AcquireSpec.extract hpos hperm

/-! ## `notify_pending` -/

theorem fillRoom_spec (n : Nat) (requests notified : List ConsumerData) :
    requests = (fillRoom n requests notified).1 ++ (fillRoom n requests notified).2.1 ∧
      (fillRoom n requests notified).2.2 = notified ++ (fillRoom n requests notified).1 ∧
      ((fillRoom n requests notified).2.1 ≠ [] →
        n ≤ (fillRoom n requests notified).2.2.length) := by
  induction requests generalizing notified with
  | nil => simp [fillRoom]
  | cons x rest ih =>
    obtain ⟨h₁, h₂, h₃⟩ := ih (notified ++ [x])
    unfold fillRoom
    split
    · refine ⟨?_, ?_, h₃⟩
      · simp only [cons_append]
        exact congrArg (x :: ·) h₁
      · simp only [h₂, append_assoc, singleton_append]
    · rename_i hroom
      refine ⟨rfl, (append_nil _).symm, fun _ => ?_⟩
      exact not_lt.mp hroom

theorem outrank_spec {n : Nat} (requests : List ConsumerData)
    (hsorted : InOrder higherPriorityFirst notified) (hn : n - 1 < notified.length) :
    requests = (outrank n requests notified).1 ++ (outrank n requests notified).2.1 ∧
      (outrank n requests notified).2.2.Perm (notified ++ (outrank n requests notified).1) ∧
      InOrder higherPriorityFirst (outrank n requests notified).2.2 ∧
      ∀ x rest, (outrank n requests notified).2.1 = x :: rest →
        ∃ t, (outrank n requests notified).2.2[n - 1]? = some t ∧
          higherPriorityFirst t x = true := by
  induction requests generalizing notified with
  | nil => simp [outrank, hsorted]
  | cons x rest ih =>
    have hperm := @insertUpper_perm _ higherPriorityFirst x notified
    obtain ⟨h₁, h₂, h₃, h₄⟩ := ih
      (insertUpper_inOrder strictWeak_higherPriorityFirst x hsorted)
      (by rw [hperm.length_eq, length_cons]; omega)
    unfold outrank
    split
    · rename_i hbelow
      refine ⟨rfl, by simp, hsorted, ?_⟩
      rintro y ys hy
      cases hy
      rw [belowThreshold, getElem?_eq_getElem hn] at hbelow
      exact ⟨_, getElem?_eq_getElem hn, hbelow⟩
    · refine ⟨?_, ?_, h₃, h₄⟩
      · simp only [cons_append]
        exact congrArg (x :: ·) h₁
      · apply h₂.trans
        apply (hperm.append_right _).trans
        exact perm_middle.symm

/-- What `notify_pending` does, with the requests it notifies. -/
structure NotifySpec (l l' : Limiter H) (moved : List ConsumerData) : Prop where
  handles : l'.resourceHandles = l.resourceHandles
  pending : l.pending.Perm (moved ++ l'.pending)
  notified : l'.notified.Perm (l.notified ++ moved)
  fair : l'.Fair

/-- Requests that stay pending in order of priority are preceded by the notified
ones up to the threshold if the first of them is. -/
theorem le_countP_of_threshold {n : Nat} {left notified : List ConsumerData} {t y : ConsumerData}
    (hleft : InOrder higherPriorityFirst (x :: left))
    (hnotified : InOrder higherPriorityFirst notified) (ht : notified[n - 1]? = some t)
    (htx : higherPriorityFirst t x = true) (hy : y ∈ x :: left) :
    n ≤ notified.countP (higherPriorityFirst · y) := by
  have hty : higherPriorityFirst t y = true := by
    obtain rfl | hy := mem_cons.mp hy
    · exact htx
    · have hyx := (pairwise_cons.mp hleft).1 y hy
      cases hty : higherPriorityFirst t y with
      | true => rfl
      | false =>
        rw [strictWeak_higherPriorityFirst.neg_trans hty hyx] at htx
        cases htx
  have hcount := le_countP_of_least strictWeak_higherPriorityFirst ht
    (fun i z hi hz => hnotified.least strictWeak_higherPriorityFirst ht i z hi hz) hty
  omega

theorem Limiter.notifyPending_spec (l : Limiter H) :
    NotifySpec l (l.notifyPending std).1 (l.notifyPending std).2 := by
  unfold notifyPending
  split
  · rename_i hnothing
    refine ⟨rfl, Perm.refl _, by simp, ?_⟩
    obtain hp | hz := hnothing
    · intro x hx
      simp [hp] at hx
    · exact fair_of_no_handle hz
  · have hfill := fillRoom_spec l.resourceHandles.length (std.sort l.pending) l.notified
    have hsort := std.sort_perm l.pending
    have hsorted := std.sort_inOrder l.pending
    generalize fillRoom l.resourceHandles.length (std.sort l.pending) l.notified = filled
      at hfill ⊢
    obtain ⟨moved, left, notified⟩ := filled
    obtain ⟨hsplit, hnotified, hfull⟩ := hfill
    simp only at hsplit hnotified hfull ⊢
    rw [hsplit] at hsort hsorted
    split
    · rename_i hnil
      rw [hnil] at hsort
      exact ⟨rfl, hsort.symm, Perm.of_eq hnotified, fun x hx => by cases hx⟩
    · rename_i hleft
      have hlen : l.resourceHandles.length - 1 < (std.sort notified).length := by
        have := hfull hleft
        rw [(std.sort_perm _).length_eq]
        omega
      have hrank := outrank_spec left (std.sort_inOrder notified) hlen
      generalize outrank l.resourceHandles.length left (std.sort notified) = ranked
        at hrank ⊢
      obtain ⟨moved', left', notified'⟩ := ranked
      obtain ⟨hsplit', hnotified', hsorted', hthreshold⟩ := hrank
      simp only at hsplit' hnotified' hsorted' hthreshold ⊢
      refine ⟨rfl, ?_, ?_, fun y hy => ?_⟩
      · rw [append_assoc, ← hsplit']
        exact hsort.symm
      · apply hnotified'.trans
        rw [← append_assoc, ← hnotified]
        exact (std.sort_perm _).append_right _
      · change y ∈ left' at hy
        cases hl : left' with
        | nil => simp [hl] at hy
        | cons x rest =>
          obtain ⟨t, ht, htx⟩ := hthreshold x rest hl
          rw [hsplit', hl] at hsorted
          have hrest := (pairwise_append.mp (pairwise_append.mp hsorted).2.1).2.1
          exact le_countP_of_threshold hrest hsorted' ht htx (hl ▸ hy)

/-! ## `release` and `withdraw` -/

theorem Limiter.release_spec (l : Limiter H) (handle : H) :
    NotifySpec { l with resourceHandles := handle :: l.resourceHandles }
      (l.release std handle).1 (l.release std handle).2 :=
  notifyPending_spec std _

theorem Limiter.withdraw_spec (hx : x ∈ l.notified)
    (hsame : ∀ y ∈ l.notified, y.same x = true → y = x) :
    ∃ notified, l.notified.Perm (x :: notified) ∧
      NotifySpec { l with notified := notified } (l.withdraw std x).1 (l.withdraw std x).2 := by
  have hany : l.notified.any (·.same x) = true :=
    any_eq_true.mpr ⟨x, hx, same_self x⟩
  refine ⟨_, perm_cons_eraseP hx hsame, ?_⟩
  unfold withdraw
  rw [if_pos hany]
  exact notifyPending_spec std _

end OneTbb.ResourceLimiter
