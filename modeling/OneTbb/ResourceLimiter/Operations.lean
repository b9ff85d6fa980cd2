import OneTbb.ResourceLimiter.Phases

/-!
# How the operations of a consumer move a part

Each operation on a limiter moves the part it is called for to another slot, and
those that put a handle back or take a notification away offer pending parts.
-/

namespace OneTbb.ResourceLimiter

open Function List

open Selection

variable {H : Type} {g : Graph H} {s s' : Shared H} {slots : Slots}
  {xs ys : List (Thread H)} {job job' : Option (Job H)} {x : ConsumerData} {σ : Slot}
  {moved ns : List ConsumerData}

/-! ## Deliveries -/

theorem deliveries_perm (xs : List (Thread H)) (t : Thread H) (ys : List (Thread H)) :
    (deliveries (xs ++ [t] ++ ys)).Perm (t.notifications ++ deliveries (xs ++ ys)) := by
  simp only [deliveries, flatMap_append, flatMap_cons, flatMap_nil,
    append_nil]
  rw [← append_assoc]
  exact perm_append_comm.append_right _

theorem deliveries_idle (xs ys : List (Thread H)) (job : Option (Job H)) :
    deliveries (xs ++ ⟨[], job⟩ :: ys) = deliveries (xs ++ ys) := by
  simp [deliveries]

/-! ## Requests -/

theorem registered_modify {k : Nat × Nat} {f : RequestData H → RequestData H}
    (hf : ∀ d, (f d).id = d.id) (r : Ref) : Registered (s.modify k f) r ↔ Registered s r := by
  unfold Registered Shared.modify
  by_cases hk : r.key = k
  · subst hk
    simp only [update_self]
    cases s.requests r.key with
    | none => simp
    | some d => simp [hf d]
  · simp only [update_of_ne hk]

theorem registered_addCounter (k : Nat × Nat) (n : Int) (r : Ref) :
    Registered (s.addCounter k n) r ↔ Registered s r := by
  apply registered_modify
  intro d
  rfl

theorem registered_setHandle (k : Nat × Nat) (i : Nat) (handle : Option H) (r : Ref) :
    Registered (s.setHandle k i handle) r ↔ Registered s r := by
  apply registered_modify
  intro d
  rfl

variable {threads : List (Thread H)}

theorem Tracked.not_pending {threads : List (Thread H)} (h : Tracked g s threads slots)
    (hslot : slots x.ref.key x.consumer.2 ≠ .pending) (p : Nat) :
    x ∉ (s.limiters p).pending := by
  intro hx
  exact hslot ((h.pending p x).mp hx).1.slot

theorem Tracked.not_notified (h : Tracked g s threads slots)
    (ho : slots x.ref.key x.consumer.2 ≠ .offered)
    (hn : slots x.ref.key x.consumer.2 ≠ .notified) (p : Nat) :
    x ∉ (s.limiters p).notified := by
  intro hx
  obtain ⟨hx | hx, _⟩ := (h.notified p x).mp hx
  · exact ho hx.slot
  · exact hn hx.slot

theorem Tracked.not_offered (h : Tracked g s threads slots)
    (ho : slots x.ref.key x.consumer.2 ≠ .offered) : x ∉ deliveries threads := by
  intro hx
  exact ho ((h.offered x).mp hx).slot

/-! ## The moves -/

section Moves

variable {l : Limiter H}

section

variable (h : Tracked g s (xs ++ ⟨[], job⟩ :: ys) slots)
include h

theorem Moves.request {notify : Bool}
    (hself : Registered s x.ref) (hindex : x.consumer.2 < g.size x.consumer.1)
    (hslot : slots x.ref.key x.consumer.2 = .absent)
    (hspec : RequestSpec (s.limiters (g.limiterOf x.consumer)) x l notify) :
    Moves g s (s.setLimiter (g.limiterOf x.consumer) l) (xs ++ ⟨[], job⟩ :: ys)
      (xs ++ [⟨if notify then [x] else [], job'⟩] ++ ys) slots x
      (if notify then .offered else .pending) [] := by
  have hp := h.not_pending (by rw [hslot]; simp) (g.limiterOf x.consumer)
  have hn := h.not_notified (by rw [hslot]; simp) (by rw [hslot]; simp) (g.limiterOf x.consumer)
  have ho := h.not_offered (by rw [hslot]; simp)
  rw [deliveries_idle] at ho
  have hnp := h.nodupPending (g.limiterOf x.consumer)
  have hnn := h.nodupNotified (g.limiterOf x.consumer)
  have hno := h.nodupOffered
  rw [deliveries_idle] at hno
  have hperm := deliveries_perm xs ⟨if notify then [x] else [], job'⟩ ys
  have hpending := hspec.pending
  have hnotified := hspec.notified
  refine ⟨fun r => Iff.rfl, hself, hindex, fun p hp => update_of_ne hp _ _,
    by simp, ?_, ?_, ?_, ?_, ?_, ?_⟩
  · intro y
    simp only [Shared.setLimiter, update_self, hpending]
    cases notify <;> simp <;> by_cases hy : y = x <;> simp [hy, hp]
  · intro y
    simp only [Shared.setLimiter, update_self, hnotified.mem_iff]
    cases notify <;> simp <;> by_cases hy : y = x <;> simp [hy, hn]
  · intro y
    rw [hperm.mem_iff, deliveries_idle]
    cases notify <;> simp <;> by_cases hy : y = x <;> simp [hy, ho]
  · simp only [Shared.setLimiter, update_self, hpending]
    cases notify with
    | true => exact hnp
    | false => exact (perm_append_singleton x _).nodup_iff.mpr (nodup_cons.mpr ⟨hp, hnp⟩)
  · simp only [Shared.setLimiter, update_self, hnotified.nodup_iff]
    cases notify with
    | true => exact (perm_append_singleton x _).nodup_iff.mpr (nodup_cons.mpr ⟨hn, hnn⟩)
    | false => exact hnn
  · rw [hperm.nodup_iff]
    cases notify with
    | true => exact nodup_cons.mpr ⟨ho, hno⟩
    | false => exact hno

theorem Moves.acquire {handle : Option H}
    (hself : Registered s x.ref) (hindex : x.consumer.2 < g.size x.consumer.1)
    (hslot : slots x.ref.key x.consumer.2 = .notified) (hσ : σ = .fetched ∨ σ = .absent)
    (hspec : AcquireSpec (s.limiters (g.limiterOf x.consumer)) x l handle) :
    Moves g s (s.setLimiter (g.limiterOf x.consumer) l) (xs ++ ⟨[], job⟩ :: ys)
      (xs ++ [⟨[], job'⟩] ++ ys) slots x σ [] := by
  have hp := h.not_pending (by rw [hslot]; simp) (g.limiterOf x.consumer)
  have ho := h.not_offered (by rw [hslot]; simp)
  rw [deliveries_idle] at ho
  have hnn := (hspec.notified.nodup_iff.mp (h.nodupNotified _))
  have hno := h.nodupOffered
  rw [deliveries_idle] at hno
  have hn := (nodup_cons.mp hnn).1
  have hperm := deliveries_perm xs (⟨[], job'⟩ : Thread H) ys
  have hopen : σ ≠ .pending ∧ σ ≠ .offered ∧ σ ≠ .notified := by
    obtain rfl | rfl := hσ <;> simp
  obtain ⟨h₁, h₂, h₃⟩ := hopen
  refine ⟨fun r => Iff.rfl, hself, hindex, fun p hp => update_of_ne hp _ _,
    by simp, ?_, ?_, ?_, ?_, ?_, ?_⟩
  · intro y
    simp only [Shared.setLimiter, update_self, hspec.pending]
    by_cases hy : y = x <;> simp [hy, hp, h₁]
  · intro y
    simp only [Shared.setLimiter, update_self, hspec.notified.mem_iff]
    by_cases hy : y = x <;> simp [hy, hn, h₂, h₃]
  · intro y
    rw [hperm.mem_iff, deliveries_idle]
    by_cases hy : y = x <;> simp [hy, ho, h₂]
  · simp only [Shared.setLimiter, update_self, hspec.pending]
    exact h.nodupPending _
  · simp only [Shared.setLimiter, update_self]
    exact (nodup_cons.mp hnn).2
  · rw [hperm.nodup_iff]
    exact hno

/-- A part that is not asked for goes away and pending parts are offered. The
limiter offers them when it has lost `x`, which is `b`. -/
theorem Moves.offer {b : Limiter H} (hspec : NotifySpec b l moved)
    (hreg : ∀ r, Registered s' r ↔ Registered s r)
    (hlim : s'.limiters = update s.limiters (g.limiterOf x.consumer) l)
    (hself : Registered s x.ref) (hindex : x.consumer.2 < g.size x.consumer.1)
    (hslot : slots x.ref.key x.consumer.2 ≠ .pending)
    (hslot' : slots x.ref.key x.consumer.2 ≠ .offered)
    (hpend : b.pending = (s.limiters (g.limiterOf x.consumer)).pending)
    (hnot : ∀ y, y ∈ b.notified ↔ y ≠ x ∧ y ∈ (s.limiters (g.limiterOf x.consumer)).notified)
    (hnodup : b.notified.Nodup) :
    Moves g s s' (xs ++ ⟨[], job⟩ :: ys) (xs ++ [⟨moved, job'⟩] ++ ys) slots x .absent moved := by
  have hp := h.not_pending hslot (g.limiterOf x.consumer)
  have ho := h.not_offered hslot'
  have hno := h.nodupOffered
  rw [deliveries_idle] at ho hno
  have hnp := h.nodupPending (g.limiterOf x.consumer)
  rw [← hpend] at hp hnp
  have hsplit := hspec.pending
  have hnodup' := hsplit.nodup_iff.mp hnp
  have hperm := deliveries_perm xs ⟨moved, job'⟩ ys
  have hmoved : ∀ y ∈ moved, y ≠ x ∧ y ∈ b.pending := by
    intro y hy
    have hmem : y ∈ b.pending := hsplit.mem_iff.mpr (mem_append_left _ hy)
    refine ⟨?_, hmem⟩
    rintro rfl
    exact hp hmem
  have hdisj : ∀ y ∈ moved, y ∉ l.pending := fun y hy hy' =>
    (nodup_append.mp hnodup').2.2 y hy y hy' rfl
  have hslots : ∀ y ∈ moved, Entry g s slots .pending y := fun y hy =>
    ((h.pending _ y).mp (hpend ▸ (hmoved y hy).2)).1
  refine ⟨hreg, hself, hindex, fun p hp => by rw [hlim, update_of_ne hp],
    fun y hy => hpend ▸ hmoved y hy, fun y => ?_, fun y => ?_, fun y => ?_, ?_, ?_, ?_⟩
  · rw [hlim, update_self, ← hpend, hsplit.mem_iff, mem_append]
    constructor
    · intro hy
      refine .inl ⟨?_, fun hm => hdisj y hm hy, .inr hy⟩
      rintro rfl
      exact hp (hsplit.mem_iff.mpr (mem_append_right _ hy))
    · rintro (⟨_, hm, hy⟩ | ⟨_, hσ⟩)
      · exact hy.resolve_left hm
      · cases hσ
  · rw [hlim, update_self, hspec.notified.mem_iff, mem_append, hnot]
    constructor
    · rintro (⟨hne, hy⟩ | hy)
      · exact .inl ⟨hne, .inr hy⟩
      · exact .inl ⟨(hmoved y hy).1, .inl hy⟩
    · rintro (⟨hne, hy | hy⟩ | ⟨_, hσ | hσ⟩)
      · exact .inr hy
      · exact .inl ⟨hne, hy⟩
      · cases hσ
      · cases hσ
  · rw [hperm.mem_iff, deliveries_idle, mem_append]
    constructor
    · rintro (hy | hy)
      · exact .inl ⟨(hmoved y hy).1, .inl hy⟩
      · refine .inl ⟨?_, .inr hy⟩
        rintro rfl
        exact ho hy
    · rintro (⟨_, hy⟩ | ⟨_, hσ⟩)
      · exact hy
      · cases hσ
  · rw [hlim, update_self]
    exact (nodup_append.mp hnodup').2.1
  · rw [hlim, update_self, hspec.notified.nodup_iff]
    refine nodup_append.mpr ⟨hnodup, (nodup_append.mp hnodup').1, ?_⟩
    rintro y hy z hz rfl
    have hentry := hslots y hz
    refine h.not_notified ?_ ?_ _ ((hnot y).mp hy).2 <;> rw [hentry.slot] <;> simp
  · rw [hperm.nodup_iff]
    refine nodup_append.mpr ⟨(nodup_append.mp hnodup').1, hno, ?_⟩
    rintro y hy z hz rfl
    have hentry := hslots y hy
    have := h.not_offered (x := y) (by rw [hentry.slot]; simp)
    rw [deliveries_idle] at this
    exact this hz

theorem Moves.store (hreg : ∀ r, Registered s' r ↔ Registered s r) (hlim : s'.limiters = s.limiters)
    (hself : Registered s x.ref) (hindex : x.consumer.2 < g.size x.consumer.1)
    (hslot : slots x.ref.key x.consumer.2 = .fetched) :
    Moves g s s' (xs ++ ⟨[], job⟩ :: ys) (xs ++ [⟨[], job'⟩] ++ ys) slots x .held [] := by
  have hp := h.not_pending (by rw [hslot]; simp) (g.limiterOf x.consumer)
  have hn := h.not_notified (by rw [hslot]; simp) (by rw [hslot]; simp) (g.limiterOf x.consumer)
  have ho := h.not_offered (by rw [hslot]; simp)
  have hno := h.nodupOffered
  rw [deliveries_idle] at ho hno
  have hperm := deliveries_perm xs (⟨[], job'⟩ : Thread H) ys
  refine ⟨hreg, hself, hindex, fun p _ => by rw [hlim], by simp, fun y => ?_, fun y => ?_,
    fun y => ?_, ?_, ?_, ?_⟩
  · rw [hlim]
    by_cases hy : y = x <;> simp [hy, hp]
  · rw [hlim]
    by_cases hy : y = x <;> simp [hy, hn]
  · rw [hperm.mem_iff, deliveries_idle]
    by_cases hy : y = x <;> simp [hy, ho]
  · rw [hlim]
    exact h.nodupPending _
  · rw [hlim]
    exact h.nodupNotified _
  · rw [hperm.nodup_iff]
    exact hno

end

theorem Moves.deliver {rest : List ConsumerData}
    (h : Tracked g s (xs ++ ⟨x :: rest, job⟩ :: ys) slots)
    (hreg : ∀ r, Registered s' r ↔ Registered s r) (hlim : s'.limiters = s.limiters)
    (hthreads : (deliveries threads).Perm (rest ++ deliveries (xs ++ ys))) :
    Moves g s s' (xs ++ ⟨x :: rest, job⟩ :: ys) threads slots x .notified [] := by
  have hperm : (deliveries (xs ++ ⟨x :: rest, job⟩ :: ys)).Perm
      (x :: (rest ++ deliveries (xs ++ ys))) := by
    have := deliveries_perm xs (⟨x :: rest, job⟩ : Thread H) ys
    rwa [append_assoc] at this
  have hentry : Entry g s slots .offered x :=
    (h.offered x).mp (hperm.mem_iff.mpr mem_cons_self)
  have hno := hperm.nodup_iff.mp h.nodupOffered
  have ho := (nodup_cons.mp hno).1
  have hp := h.not_pending (by rw [hentry.slot]; simp) (g.limiterOf x.consumer)
  have hn : x ∈ (s.limiters (g.limiterOf x.consumer)).notified :=
    (h.notified _ x).mpr ⟨.inl hentry, rfl⟩
  refine ⟨hreg, hentry.registered, hentry.index, fun p _ => by rw [hlim], by simp, fun y => ?_,
    fun y => ?_, fun y => ?_, ?_, ?_, ?_⟩
  · rw [hlim]
    by_cases hy : y = x <;> simp [hy, hp]
  · rw [hlim]
    by_cases hy : y = x <;> simp [hy, hn]
  · rw [hthreads.mem_iff, hperm.mem_iff]
    by_cases hy : y = x
    · subst hy
      simpa using ho
    · simp [hy]
  · rw [hlim]
    exact h.nodupPending _
  · rw [hlim]
    exact h.nodupNotified _
  · rw [hthreads.nodup_iff]
    exact (nodup_cons.mp hno).2

end Moves

/-! ## Slots after a move -/

/-- Slots other than that of the part that moves are only offered. -/
theorem Moves.later {threads threads' : List (Thread H)} (h : Tracked g s threads slots)
    (m : Moves g s s' threads threads' slots x σ moved) {k : Nat × Nat} {i : Nat}
    (hne : ¬ (k = x.ref.key ∧ i = x.consumer.2)) :
    Later (slots k i) (slots.move x σ moved k i) := by
  simp only [Slots.move]
  rw [if_neg hne]
  split
  · rename_i hmoved
    obtain ⟨y, hy, rfl, rfl⟩ := hmoved
    exact .inr ⟨((h.pending _ y).mp (m.movable y hy).2).1.slot, rfl⟩
  · exact .inl rfl

theorem JobOk.move {j j' : Job H} {threads threads' : List (Thread H)} {i : Nat} {c : Int}
    (h : JobOk g s slots j) (ht : Tracked g s threads slots)
    (m : Moves g s s' threads threads' slots (j.ref.data i) σ moved)
    (hj : j'.ref = j.ref) (hi : i < g.size j.ref.node)
    (hbounds : j'.InBounds (g.size j.ref.node)) (hold : (slots j.ref.key i).isOpen = false)
    (hσ : (j'.knows i).Holds σ)
    (hknows : ∀ i', i' < g.size j.ref.node → i' ≠ i →
      ∀ τ, (j.knows i').Holds τ → (j'.knows i').Holds τ)
    (hdata : ∀ d, s.requests j.ref.key = some d → ∃ d', s'.requests j.ref.key = some d' ∧
      d'.id = d.id ∧ d'.notifyCounter = d.notifyCounter + c ∧
      (∀ i', i' ≠ i → d'.handles i' = d.handles i') ∧
      (σ = .held → (d'.handles i).isSome = true))
    (hahead : (j'.ahead (g.size j.ref.node) : Int) + σ.isOpen.toNat =
      j.ahead (g.size j.ref.node) + c) :
    JobOk g s' (slots.move (j.ref.data i) σ moved) j' := by
  have hlater (i' : Nat) (hne : i' ≠ i) := m.later ht (k := j.ref.key) fun he => hne he.2
  have hself := slots.move_self (x := j.ref.data i) σ moved
  change slots.move (j.ref.data i) σ moved j.ref.key i = σ at hself
  generalize slots.move (j.ref.data i) σ moved = slots' at hlater hself ⊢
  obtain ⟨d, hd, hid, hok⟩ := h.data
  obtain ⟨d', hd', hid', hcounter, hhandles, hheld⟩ := hdata d hd
  refine ⟨by rw [hj]; exact hbounds, ?_, d', by rw [hj]; exact hd', by rw [hj, hid', hid], ?_, ?_⟩
  · intro i' hi'
    rw [hj] at hi' ⊢
    by_cases he : i' = i
    · subst he
      rw [hself]
      exact hσ
    · exact hknows i' hi' he _ ((h.knows i' hi').later (hlater i' he))
  · have hcount := countP_range_except (p := fun a => (slots' j.ref.key a).isOpen)
      (q := fun a => (slots j.ref.key a).isOpen) hi fun a _ ha => (hlater a ha).isOpen
    simp only [hold, hself, Bool.toNat_false, Nat.add_zero] at hcount
    have hcounter' := hok.counter
    rw [hj]
    simp only [openCount] at hcounter' ⊢
    omega
  · intro i' hi' hh
    rw [hj] at hi' hh
    by_cases he : i' = i
    · subst he
      exact hheld (hself.symm.trans hh)
    · rw [hhandles i' he]
      exact hok.handles i' hi' ((hlater i' he).held hh)

/-- A job goes on without moving a part. -/
theorem JobOk.recount {j j' : Job H} {c : Int} (h : JobOk g s slots j) (hj : j'.ref = j.ref)
    (hbounds : j'.InBounds (g.size j.ref.node))
    (hknows : ∀ i, i < g.size j.ref.node → ∀ τ, (j.knows i).Holds τ → (j'.knows i).Holds τ)
    (hdata : ∀ d, s.requests j.ref.key = some d → ∃ d', s'.requests j.ref.key = some d' ∧
      d'.id = d.id ∧ d'.notifyCounter = d.notifyCounter + c ∧ d'.handles = d.handles)
    (hahead : (j'.ahead (g.size j.ref.node) : Int) = j.ahead (g.size j.ref.node) + c) :
    JobOk g s' slots j' := by
  obtain ⟨d, hd, hid, hok⟩ := h.data
  obtain ⟨d', hd', hid', hcounter, hhandles⟩ := hdata d hd
  refine ⟨by rw [hj]; exact hbounds, ?_, d', by rw [hj]; exact hd', by rw [hj, hid', hid], ?_, ?_⟩
  · intro i hi
    rw [hj] at hi ⊢
    exact hknows i hi _ (h.knows i hi)
  · have := hok.counter
    rw [hj]
    omega
  · rw [hj, hhandles]
    exact hok.handles

end OneTbb.ResourceLimiter
