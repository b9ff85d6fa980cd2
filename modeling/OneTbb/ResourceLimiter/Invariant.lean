import OneTbb.ResourceLimiter.Operations

/-!
# The invariant of limiters and bodies

The lists follow the slots, threads know where the parts of their requests are,
every limiter is fair, and a pool is empty only while some request owns a handle
of it. Each lemma here is about one kind of step.
-/

namespace OneTbb.ResourceLimiter

open Function List Option Slot Job

open Selection

variable {H : Type}

structure Inv (g : Graph H) (st : State H) (slots : Slots) : Prop where
  tracked : Tracked g st.shared st.threads slots
  phases : Phases g st.shared st.threads slots
  fair : ∀ p, (st.shared.limiters p).Fair
  pools : ∀ p, (st.shared.limiters p).resourceHandles = [] → ∃ x σ, σ.hasHandle = true ∧
    Entry g st.shared slots σ x ∧ g.limiterOf x.consumer = p
  ids : ∀ k d, st.shared.requests k = some d →
    d.id.uniqueInteger = k.2 ∧ k.2 ≤ st.shared.counters k.1
  finite : ∃ keys : List (Nat × Nat), ∀ k d, st.shared.requests k = some d → k ∈ keys

variable {g : Graph H} {s s' : Shared H} {slots : Slots} {xs ys : List (Thread H)}
  {j j' : Job H} {i : Nat} {σ : Slot} {moved : List ConsumerData}

theorem JobOk.registered (h : JobOk g s slots j) : Registered s j.ref := by
  obtain ⟨d, hd, hid, _⟩ := h.data
  exact ⟨d, hd, hid⟩

/-! ## What a step leaves as it is -/

/-- A pool that is empty after a move has the owner it had before, or the part
that has moved. -/
theorem Inv.pools_move {st : State H} {threads' : List (Thread H)} {x : ConsumerData}
    (h : Inv g st slots) (m : Moves g st.shared s' st.threads threads' slots x σ moved)
    (hpool : ∀ p, (s'.limiters p).resourceHandles = [] →
      p = g.limiterOf x.consumer ∧ σ.hasHandle = true ∨
        (st.shared.limiters p).resourceHandles = [] ∧
          (p = g.limiterOf x.consumer → (slots x.ref.key x.consumer.2).hasHandle = false)) :
    ∀ p, (s'.limiters p).resourceHandles = [] → ∃ y τ, τ.hasHandle = true ∧
      Entry g s' (slots.move x σ moved) τ y ∧ g.limiterOf y.consumer = p := by
  intro p hp
  obtain ⟨rfl, hσ⟩ | ⟨hempty, hx⟩ := hpool p hp
  · exact ⟨x, σ, hσ, (m.entry_iff h.tracked).mpr (.inl ⟨rfl, rfl⟩), rfl⟩
  · obtain ⟨y, τ, hτ, hentry, hy⟩ := h.pools p hempty
    refine ⟨y, τ, hτ, (m.entry_iff h.tracked).mpr (.inr (.inr ⟨?_, ?_, hentry⟩)), hy⟩
    · rintro rfl
      have := hx hy.symm
      rw [hentry.slot, hτ] at this
      cases this
    · intro hm
      have := ((h.tracked.pending _ y).mp (m.movable y hm).2).1.slot
      rw [hentry.slot] at this
      rw [this] at hτ
      cases hτ

theorem Entry.congr (hreg : ∀ r, Registered s' r ↔ Registered s r) {x : ConsumerData} :
    Entry g s' slots σ x ↔ Entry g s slots σ x :=
  ⟨fun h => ⟨(hreg _).mp h.registered, h.index, h.slot⟩,
    fun h => ⟨(hreg _).mpr h.registered, h.index, h.slot⟩⟩

theorem Tracked.congr {slots' : Slots} {threads threads' : List (Thread H)}
    (h : Tracked g s threads slots) (hlim : s'.limiters = s.limiters)
    (hentry : ∀ σ x, σ ≠ .absent → (Entry g s' slots' σ x ↔ Entry g s slots σ x))
    (hthreads : (deliveries threads').Perm (deliveries threads)) :
    Tracked g s' threads' slots' where
  pending := by
    intro p x
    rw [hlim, hentry _ _ (by simp)]
    exact h.pending p x
  notified := by
    intro p x
    rw [hlim, hentry _ _ (by simp), hentry _ _ (by simp)]
    exact h.notified p x
  offered := by
    intro x
    rw [hthreads.mem_iff, hentry _ _ (by simp)]
    exact h.offered x
  nodupPending := by
    rw [hlim]
    exact h.nodupPending
  nodupNotified := by
    rw [hlim]
    exact h.nodupNotified
  nodupOffered := hthreads.nodup_iff.mpr h.nodupOffered

/-- Owners of handles are found among the parts that are not absent. -/
theorem Inv.pools_congr {st : State H} {slots' : Slots} (h : Inv g st slots)
    (hlim : s'.limiters = st.shared.limiters)
    (hentry : ∀ σ x, σ ≠ .absent → (Entry g s' slots' σ x ↔ Entry g st.shared slots σ x)) :
    ∀ p, (s'.limiters p).resourceHandles = [] → ∃ x σ, σ.hasHandle = true ∧
      Entry g s' slots' σ x ∧ g.limiterOf x.consumer = p := by
  intro p hp
  rw [hlim] at hp
  obtain ⟨x, σ, hσ, hx, hlimiter⟩ := h.pools p hp
  refine ⟨x, σ, hσ, (hentry σ x ?_).mpr hx, hlimiter⟩
  rintro rfl
  cases hσ

variable {std : OrderAlgorithms higherPriorityFirst}

variable {r : Ref} {l : Limiter H} {k : Nat × Nat}

theorem fair_setLimiter {p : Nat} {l : Limiter H} (h : ∀ p, (s.limiters p).Fair) (hl : l.Fair) :
    ∀ q, ((s.setLimiter p l).limiters q).Fair := by
  intro q
  simp only [Shared.setLimiter]
  by_cases hq : q = p
  · subst hq
    rw [update_self]
    exact hl
  · rw [update_of_ne hq]
    exact h q

/-- A limiter with the handles it had leaves the empty pools as they were. -/
theorem pool_setLimiter {p q : Nat} (hl : l.resourceHandles = (s.limiters q).resourceHandles)
    (hp : ((s.setLimiter q l).limiters p).resourceHandles = []) :
    (s.limiters p).resourceHandles = [] := by
  simp only [Shared.setLimiter] at hp
  by_cases hq : p = q
  · subst hq
    rw [update_self] at hp
    exact hl.symm.trans hp
  · rwa [update_of_ne hq] at hp

theorem JobOk.slot (h : JobOk g s slots j) (hi : i < g.size j.ref.node) {τ : Slot}
    (hk : j.knows i = .exactly τ) : slots j.ref.key i = τ ∧ τ.isOpen = false := by
  have := h.knows i hi
  rw [hk] at this
  exact this

/-- The facts about a job that a step of it keeps for the other parts. -/
def Job.Keeps (j j' : Job H) (n i : Nat) : Prop :=
  ∀ i', i' < n → i' ≠ i → ∀ τ, (j.knows i').Holds τ → (j'.knows i').Holds τ

/-- The handle a job knows to be held is in its request. -/
theorem JobOk.handle (h : JobOk g s slots j) (hi : i < g.size j.ref.node)
    (hk : j.knows i = .exactly .held) :
    ∃ handle, (s.requests j.ref.key).bind (·.handles i) = some handle := by
  obtain ⟨d, hd, _, hok⟩ := h.data
  have := hok.handles i hi (h.slot hi hk).1
  rw [hd]
  exact isSome_iff_exists.mp this

theorem addCounter_data {d : RequestData H} (hd : s.requests k = some d)
    (c : Int) : (s.addCounter k c).requests k =
      some { d with notifyCounter := d.notifyCounter + c } := by
  simp [Shared.addCounter, Shared.modify, hd]

theorem addCounter_other {k k' : Nat × Nat} (hne : k' ≠ k) (c : Int) :
    (s.addCounter k c).requests k' = s.requests k' := update_of_ne hne _ _

/-- Parts that are asked for and not open are notified. -/
theorem notified_of_openCount {n : Nat} (h : openCount slots k n = 0) (hi : i < n)
    (ha : (slots k i).isAsked = true) : slots k i = .notified := by
  have hopen := countP_eq_zero.mp h i (mem_range.mpr hi)
  cases hs : slots k i <;> simp_all [isAsked, isOpen]

theorem removeRequest_other (hk : k ≠ r.key) :
    (s.removeRequest r).requests k = s.requests k := update_of_ne hk _ _

/-! ## Steps of a job -/

section

variable (h : Inv g ⟨s, xs ++ ⟨[], some j⟩ :: ys⟩ slots)
include h

theorem Inv.jobOk : JobOk g s slots j :=
  h.phases.jobs ⟨[], some j⟩ (by simp) j rfl

theorem Inv.moveOwn {ns : List ConsumerData} (hj : j'.ref = j.ref)
    (m : Moves g s s' (xs ++ ⟨[], some j⟩ :: ys) (xs ++ [⟨ns, some j'⟩] ++ ys) slots
      (j.ref.data i) σ moved)
    (hcounters : s'.counters = s.counters)
    (hreq : ∀ k, k ≠ j.ref.key → s'.requests k = s.requests k)
    (hok : JobOk g s' (slots.move (j.ref.data i) σ moved) j')
    (hfair : ∀ p, (s'.limiters p).Fair)
    (hpool : ∀ p, (s'.limiters p).resourceHandles = [] →
      p = g.limiterOf (j.ref.node, i) ∧ σ.hasHandle = true ∨
        (s.limiters p).resourceHandles = [] ∧
          (p = g.limiterOf (j.ref.node, i) → (slots j.ref.key i).hasHandle = false)) :
    Inv g ⟨s', xs ++ [⟨ns, some j'⟩] ++ ys⟩ (slots.move (j.ref.data i) σ moved) := by
  obtain ⟨d, hd, hid, _⟩ := h.jobOk.data
  constructor
  case tracked => exact h.tracked.move m
  case phases =>
    apply h.phases.own rfl hreq
    · intro k hk i'
      exact m.later h.tracked fun he => hk he.1
    · rintro _ ⟨⟩
      exact ⟨hj, hok⟩
    · exact nofun
  case fair => exact hfair
  case pools => exact h.pools_move m hpool
  case ids =>
    intro k d' hd'
    by_cases hk : k = j.ref.key
    · subst hk
      obtain ⟨d'', hd'', hid'', _⟩ := hok.data
      rw [hj, hd'] at hd''
      cases hd''
      refine ⟨by rw [hid'', hj]; rfl, ?_⟩
      rw [hcounters]
      exact (h.ids _ d hd).2
    · rw [hreq k hk] at hd'
      rw [hcounters]
      exact h.ids k d' hd'
  case finite =>
    obtain ⟨keys, hkeys⟩ := h.finite
    refine ⟨keys, fun k d' hd' => ?_⟩
    by_cases hk : k = j.ref.key
    · subst hk
      exact hkeys _ d hd
    · rw [hreq k hk] at hd'
      exact hkeys k d' hd'

/-- A thread changes nothing but the counter of its request, or nothing. -/
theorem Inv.countOwn {next : Option (Job H)}
    (hlim : s'.limiters = s.limiters) (hcounters : s'.counters = s.counters)
    (hreg : ∀ r, Registered s' r ↔ Registered s r)
    (hreq : ∀ k, k ≠ j.ref.key → s'.requests k = s.requests k)
    (hgo : ∀ j', next = some j' → j'.ref = j.ref ∧ JobOk g s' slots j')
    (hstop : next = none → ∀ d, s'.requests j.ref.key = some d → Waiting g slots j.ref.key d) :
    Inv g ⟨s', xs ++ [⟨[], next⟩] ++ ys⟩ slots := by
  obtain ⟨d, hd, hid, _⟩ := h.jobOk.data
  constructor
  case tracked =>
    refine h.tracked.congr hlim (fun _ _ _ => Entry.congr hreg) ?_
    apply (deliveries_perm xs _ ys).trans
    rw [deliveries_idle]
    exact Perm.refl _
  case phases =>
    exact h.phases.own rfl hreq (fun _ _ _ => .inl rfl) hgo hstop
  case fair =>
    rw [show (State.mk s' _).shared.limiters = s.limiters from hlim]
    exact h.fair
  case pools => exact h.pools_congr hlim fun _ _ _ => Entry.congr hreg
  case ids =>
    intro k d' hd'
    rw [show (State.mk s' _).shared.counters = s.counters from hcounters]
    by_cases hk : k = j.ref.key
    · subst hk
      obtain ⟨d'', hd'', hid''⟩ := (hreg j.ref).mpr ⟨d, hd, hid⟩
      obtain rfl : d' = d'' := some.inj (hd'.symm.trans hd'')
      exact ⟨by rw [hid'']; rfl, (h.ids _ d hd).2⟩
    · exact h.ids k d' ((hreq k hk).symm.trans hd')
  case finite =>
    obtain ⟨keys, hkeys⟩ := h.finite
    refine ⟨keys, fun k d' hd' => ?_⟩
    by_cases hk : k = j.ref.key
    · subst hk
      exact hkeys _ d hd
    · exact hkeys k d' ((hreq k hk).symm.trans hd')

theorem Inv.request (j' : Job H) (hj : j'.ref = j.ref)
    (hi : i < g.size j.ref.node) (hold : j.knows i = .exactly .absent)
    (hnew : j'.knows i = .asked) (hkeeps : j.Keeps j' (g.size j.ref.node) i)
    (hbounds : j'.InBounds (g.size j.ref.node))
    (hahead : j.ahead (g.size j.ref.node) = j'.ahead (g.size j.ref.node) + 1) :
    ∃ slots', Inv g ⟨(s.requestFrom g std j.ref i).1,
      xs ++ [⟨(s.requestFrom g std j.ref i).2, some j'⟩] ++ ys⟩ slots' := by
  have hok := h.jobOk
  obtain ⟨hslot, hopen⟩ := hok.slot hi hold
  have hspec := (s.limiters (g.limiterOf (j.ref.node, i))).request_spec std (j.ref.data i)
  simp only [Shared.requestFrom]
  generalize (s.limiters (g.limiterOf (j.ref.node, i))).request std (j.ref.data i) = result
    at hspec ⊢
  obtain ⟨l, notify⟩ := result
  have m : Moves g s (s.setLimiter (g.limiterOf (j.ref.node, i)) l)
      (xs ++ ⟨[], some j⟩ :: ys)
      (xs ++ [⟨if notify then [j.ref.data i] else [], some j'⟩] ++ ys) slots (j.ref.data i)
      (if notify then .offered else .pending) [] :=
    Moves.request (x := j.ref.data i) h.tracked hok.registered hi hslot hspec
  refine ⟨_, h.moveOwn hj m rfl (fun _ _ => rfl) ?_ (fair_setLimiter h.fair ?_) ?_⟩
  · refine hok.move (c := 0) h.tracked m hj hi hbounds (by rw [hslot]; rfl) ?_ hkeeps ?_ ?_
    · rw [hnew]
      cases notify <;> rfl
    · intro d hd
      refine ⟨d, hd, rfl, by simp, fun _ _ => rfl, ?_⟩
      cases notify <;> simp
    · rw [hahead]
      cases notify <;> simp [isOpen]
  · exact hspec.fair (h.fair _)
  · intro p hp
    exact .inr ⟨pool_setLimiter hspec.handles hp, fun _ => by rw [hslot]; rfl⟩

theorem Inv.release (j' : Job H) (hj : j'.ref = j.ref)
    (hi : i < g.size j.ref.node) (hold : j.knows i = .exactly .held)
    (hnew : j'.knows i = .exactly .absent) (hkeeps : j.Keeps j' (g.size j.ref.node) i)
    (hbounds : j'.InBounds (g.size j.ref.node))
    (hahead : j.ahead (g.size j.ref.node) = j'.ahead (g.size j.ref.node)) :
    ∃ slots', Inv g ⟨(s.releaseTo g std j.ref i).1,
      xs ++ [⟨(s.releaseTo g std j.ref i).2, some j'⟩] ++ ys⟩ slots' := by
  have hok := h.jobOk
  obtain ⟨hslot, _⟩ := hok.slot hi hold
  obtain ⟨handle, hhandle⟩ := hok.handle hi hold
  have hspec := (s.limiters (g.limiterOf (j.ref.node, i))).release_spec std handle
  simp only [Shared.releaseTo, hhandle]
  generalize (s.limiters (g.limiterOf (j.ref.node, i))).release std handle = result at hspec ⊢
  obtain ⟨l, moved⟩ := result
  have hx : ∀ p, j.ref.data i ∉ (s.limiters p).notified := fun p =>
    h.tracked.not_notified (by rw [Ref.data_ref]; simp [Ref.data, hslot])
      (by rw [Ref.data_ref]; simp [Ref.data, hslot]) p
  have m : Moves g s ((s.setLimiter (g.limiterOf (j.ref.node, i)) l).setHandle j.ref.key i none)
      (xs ++ ⟨[], some j⟩ :: ys) (xs ++ [⟨moved, some j'⟩] ++ ys) slots (j.ref.data i) .absent
      moved := by
    refine Moves.offer h.tracked hspec (registered_setHandle _ _ _) rfl hok.registered hi
      (by rw [Ref.data_ref]; simp [Ref.data, hslot])
      (by rw [Ref.data_ref]; simp [Ref.data, hslot]) rfl ?_ (h.tracked.nodupNotified _)
    intro y
    constructor
    · intro hy
      refine ⟨?_, hy⟩
      rintro rfl
      exact hx _ hy
    · exact And.right
  refine ⟨_, h.moveOwn hj m rfl ?_ ?_ (fair_setLimiter h.fair hspec.fair) ?_⟩
  · intro k hk
    exact update_of_ne hk _ _
  · refine hok.move (c := 0) h.tracked m hj hi hbounds (by rw [hslot]; rfl) ?_ hkeeps ?_ ?_
    · rw [hnew]
      exact ⟨rfl, rfl⟩
    · intro d hd
      refine ⟨{ d with handles := update d.handles i none }, ?_, rfl, by simp,
        fun _ hne => update_of_ne hne _ _, nofun⟩
      simp [Shared.setHandle, Shared.modify, Shared.setLimiter, hd]
    · rw [hahead]
      simp [isOpen]
  · intro p hp
    change ((s.setLimiter _ l).limiters p).resourceHandles = [] at hp
    simp only [Shared.setLimiter] at hp
    by_cases hq : p = g.limiterOf (j.ref.node, i)
    · subst hq
      rw [update_self, hspec.handles] at hp
      cases hp
    · rw [update_of_ne hq] at hp
      exact .inr ⟨hp, fun he => absurd he hq⟩

theorem Inv.withdraw (j' : Job H) (hj : j'.ref = j.ref)
    (hi : i < g.size j.ref.node) (hold : j.knows i = .exactly .notified)
    (hnew : j'.knows i = .exactly .absent) (hkeeps : j.Keeps j' (g.size j.ref.node) i)
    (hbounds : j'.InBounds (g.size j.ref.node))
    (hahead : j.ahead (g.size j.ref.node) = j'.ahead (g.size j.ref.node)) :
    ∃ slots', Inv g ⟨(s.withdrawFrom g std j.ref i).1,
      xs ++ [⟨(s.withdrawFrom g std j.ref i).2, some j'⟩] ++ ys⟩ slots' := by
  have hok := h.jobOk
  obtain ⟨hslot, _⟩ := hok.slot hi hold
  have hx : j.ref.data i ∈ (s.limiters (g.limiterOf (j.ref.node, i))).notified :=
    (h.tracked.notified _ _).mpr ⟨.inr ⟨hok.registered, hi, hslot⟩, rfl⟩
  obtain ⟨notified, hperm, hspec⟩ :=
    Limiter.withdraw_spec std hx (h.tracked.same_notified hx)
  simp only [Shared.withdrawFrom]
  generalize (s.limiters (g.limiterOf (j.ref.node, i))).withdraw std (j.ref.data i) = result
    at hspec ⊢
  obtain ⟨l, moved⟩ := result
  have hnodup := hperm.nodup_iff.mp (h.tracked.nodupNotified _)
  have m : Moves g s (s.setLimiter (g.limiterOf (j.ref.node, i)) l)
      (xs ++ ⟨[], some j⟩ :: ys) (xs ++ [⟨moved, some j'⟩] ++ ys) slots (j.ref.data i) .absent
      moved := by
    refine Moves.offer h.tracked hspec (fun r => Iff.rfl) rfl hok.registered hi
      (by rw [Ref.data_ref]; simp [Ref.data, hslot])
      (by rw [Ref.data_ref]; simp [Ref.data, hslot]) rfl ?_ (nodup_cons.mp hnodup).2
    intro y
    change y ∈ notified ↔ y ≠ j.ref.data i ∧
      y ∈ (s.limiters (g.limiterOf (j.ref.node, i))).notified
    rw [hperm.mem_iff, mem_cons]
    constructor
    · intro hy
      refine ⟨?_, .inr hy⟩
      rintro rfl
      exact (nodup_cons.mp hnodup).1 hy
    · exact fun ⟨hne, hy⟩ => hy.resolve_left hne
  refine ⟨_, h.moveOwn hj m rfl (fun _ _ => rfl) ?_ (fair_setLimiter h.fair hspec.fair) ?_⟩
  · refine hok.move (c := 0) h.tracked m hj hi hbounds (by rw [hslot]; rfl) ?_ hkeeps ?_ ?_
    · rw [hnew]
      exact ⟨rfl, rfl⟩
    · intro d hd
      exact ⟨d, hd, rfl, by simp, fun _ _ => rfl, nofun⟩
    · rw [hahead]
      simp [isOpen]
  · intro p hp
    exact .inr ⟨pool_setLimiter hspec.handles hp, fun _ => by rw [hslot]; rfl⟩

theorem Inv.count (c : Int) (hj : j'.ref = j.ref) (hbounds : j'.InBounds (g.size j.ref.node))
    (hknows : ∀ i, i < g.size j.ref.node → ∀ τ, (j.knows i).Holds τ → (j'.knows i).Holds τ)
    (hahead : (j'.ahead (g.size j.ref.node) : Int) = j.ahead (g.size j.ref.node) + c) :
    Inv g ⟨s.addCounter j.ref.key c, xs ++ [⟨[], some j'⟩] ++ ys⟩ slots := by
  refine h.countOwn rfl rfl (registered_addCounter _ _) (fun k hk => addCounter_other hk c) ?_ ?_
  · rintro _ ⟨⟩
    refine ⟨hj, h.jobOk.recount hj hbounds hknows (fun d hd => ?_) hahead⟩
    exact ⟨_, addCounter_data hd c, rfl, rfl, rfl⟩
  · exact nofun

/-- A thread goes on without an access to shared data. -/
theorem Inv.goOn (hj : j'.ref = j.ref) (hbounds : j'.InBounds (g.size j.ref.node))
    (hknows : ∀ i, i < g.size j.ref.node → ∀ τ, (j.knows i).Holds τ → (j'.knows i).Holds τ)
    (hahead : j'.ahead (g.size j.ref.node) = j.ahead (g.size j.ref.node)) :
    Inv g ⟨s, xs ++ [⟨[], some j'⟩] ++ ys⟩ slots := by
  refine h.countOwn rfl rfl (fun _ => Iff.rfl) (fun _ _ => rfl) ?_ ?_
  · rintro _ ⟨⟩
    refine ⟨hj, h.jobOk.recount hj hbounds hknows (c := 0) (fun d hd => ?_) (by rw [hahead]; simp)⟩
    exact ⟨d, hd, rfl, by simp, rfl⟩
  · exact nofun

/-- `release_self_ref` at the end of the requests: the request waits, or this
thread acquires its resources. -/
theorem Inv.selfRef (hknows : ∀ i, i < g.size j.ref.node → j.knows i = .asked)
    (hahead : j.ahead (g.size j.ref.node) = 1) :
    Inv g ⟨(s.releaseSelfRef j.ref).1,
      xs ++ [⟨(s.releaseSelfRef j.ref).2.1, (s.releaseSelfRef j.ref).2.2⟩] ++ ys⟩ slots := by
  have hok := h.jobOk
  obtain ⟨d, hd, hid, hdata⟩ := hok.data
  have hasked : ∀ i, i < g.size j.ref.node → (slots j.ref.key i).isAsked = true := by
    intro i hi
    have := hok.knows i hi
    rwa [hknows i hi] at this
  have hcounter := hdata.counter
  rw [hahead] at hcounter
  simp only [Shared.releaseSelfRef, hd, map_some]
  refine h.countOwn rfl rfl (registered_addCounter _ _) (fun k hk => addCounter_other hk _) ?_ ?_
  · intro j' hj'
    split at hj'
    · rename_i hone
      cases hj'
      have hzero : openCount slots j.ref.key (g.size j.ref.node) = 0 := by
        have := some.inj hone
        omega
      refine ⟨rfl, trivial, ?_, _, addCounter_data hd _, hid, ?_, hdata.handles⟩
      · intro i hi
        exact ⟨notified_of_openCount hzero hi (hasked i hi), rfl⟩
      · change d.notifyCounter + -1 = (0 : Nat) + _
        change _ = ((0 : Nat) : Int) + (openCount slots j.ref.key (g.size j.ref.node) : Int)
        omega
    · cases hj'
  · intro hnone d' hd'
    rw [addCounter_data hd] at hd'
    cases hd'
    split at hnone
    · cases hnone
    · rename_i hne
      have hopen : 0 < openCount slots j.ref.key (g.size j.ref.node) := by
        apply Nat.pos_of_ne_zero
        intro hzero
        apply hne
        rw [hcounter, hzero]
        rfl
      refine ⟨hasked, ⟨?_, hdata.handles⟩, hopen⟩
      change d.notifyCounter + -1 =
        ((0 : Nat) : Int) + (openCount slots j.ref.key (g.size j.ref.node) : Int)
      omega

theorem Inv.remove (hknows : ∀ i, i < g.size j.ref.node → j.knows i = .exactly .absent) :
    Inv g ⟨s.removeRequest j.ref, xs ++ [⟨[], none⟩] ++ ys⟩ slots := by
  have hok := h.jobOk
  have hself : (s.removeRequest j.ref).requests j.ref.key = none := update_self _ _ _
  have hentry : ∀ σ x, σ ≠ .absent →
      (Entry g (s.removeRequest j.ref) slots σ x ↔ Entry g s slots σ x) := by
    intro σ x hσ
    by_cases hk : x.ref.key = j.ref.key
    · constructor
      · rintro ⟨⟨d, hd, _⟩, _, _⟩
        rw [hk, hself] at hd
        cases hd
      · rintro ⟨_, hindex, hslot⟩
        have hnode : x.consumer.1 = j.ref.node := congrArg Prod.fst hk
        rw [hk] at hslot
        rw [hnode] at hindex
        exact absurd (hslot.symm.trans (hok.slot hindex (hknows _ hindex)).1) hσ
    · have hreg : Registered (s.removeRequest j.ref) x.ref ↔ Registered s x.ref := by
        rw [Registered, Registered, removeRequest_other hk]
      exact ⟨fun h => ⟨hreg.mp h.registered, h.index, h.slot⟩,
        fun h => ⟨hreg.mpr h.registered, h.index, h.slot⟩⟩
  have hold : ∀ k d, (s.removeRequest j.ref).requests k = some d → s.requests k = some d := by
    intro k d hd
    by_cases hk : k = j.ref.key
    · rw [hk, hself] at hd
      cases hd
    · rwa [removeRequest_other hk] at hd
  constructor
  case tracked =>
    refine h.tracked.congr rfl hentry ?_
    apply (deliveries_perm xs _ ys).trans
    rw [deliveries_idle]
    exact Perm.refl _
  case phases =>
    refine h.phases.own rfl (fun k hk => removeRequest_other hk) (fun _ _ _ => .inl rfl)
      (by intro _ heq; cases heq) ?_
    intro _ d hd
    rw [hself] at hd
    cases hd
  case fair => exact h.fair
  case pools => exact h.pools_congr rfl hentry
  case ids => exact fun k d hd => h.ids k d (hold k d hd)
  case finite =>
    obtain ⟨keys, hkeys⟩ := h.finite
    exact ⟨keys, fun k d hd => hkeys k d (hold k d hd)⟩

end

/-- A limiter has answered `acquire` for the part of a job. -/
theorem Inv.acquired {handle : Option H} (h : Inv g ⟨s, xs ++ ⟨[], some (.asking r i)⟩ :: ys⟩ slots)
    (hspec : AcquireSpec (s.limiters (g.limiterOf (r.node, i))) (r.data i) l handle)
    (hslot : slots r.key i = .notified) (hj : j'.ref = r) (hbounds : j'.InBounds (g.size r.node))
    (hσ : σ = .fetched ∨ σ = .absent ∧ handle = none) (hknows : j'.knows i = .exactly σ)
    (hkeeps : (asking r i : Job H).Keeps j' (g.size r.node) i)
    (hahead : j'.ahead (g.size r.node) = 2) :
    ∃ slots', Inv g ⟨s.setLimiter (g.limiterOf (r.node, i)) l, xs ++ [⟨[], some j'⟩] ++ ys⟩
      slots' := by
  have hok := h.jobOk
  have hopen : σ.isOpen = false := by
    obtain rfl | ⟨rfl, _⟩ := hσ <;> rfl
  have hheld : σ ≠ .held := by
    obtain rfl | ⟨rfl, _⟩ := hσ <;> decide
  have m : Moves g s (s.setLimiter (g.limiterOf (r.node, i)) l)
      (xs ++ ⟨[], some (.asking r i)⟩ :: ys) (xs ++ [⟨[], some j'⟩] ++ ys) slots (r.data i) σ [] :=
    Moves.acquire (x := r.data i) h.tracked hok.registered hok.bounds hslot
      (hσ.imp_right And.left) hspec
  refine ⟨_, h.moveOwn hj m rfl (fun _ _ => rfl) ?_ (fair_setLimiter h.fair (hspec.fair (h.fair _)))
    ?_⟩
  · refine hok.move (c := 0) h.tracked m hj hok.bounds hbounds (congrArg isOpen hslot) ?_
      hkeeps ?_ ?_
    · rw [hknows]
      exact ⟨rfl, hopen⟩
    · intro d hd
      exact ⟨d, hd, rfl, (Int.add_zero _).symm, fun _ _ => rfl, fun he => absurd he hheld⟩
    · rw [hopen]
      change (j'.ahead (g.size r.node) : Int) + 0 = 2 + 0
      omega
  · intro p hp
    obtain rfl | ⟨rfl, rfl⟩ := hσ
    · by_cases hq : p = g.limiterOf (r.node, i)
      · exact .inl ⟨hq, rfl⟩
      · simp only [Shared.setLimiter, update_of_ne hq] at hp
        exact .inr ⟨hp, fun he => absurd he hq⟩
    · exact .inr ⟨pool_setLimiter hspec.handles.symm hp, fun _ => congrArg hasHandle hslot⟩

theorem Inv.acquire (h : Inv g ⟨s, xs ++ ⟨[], some (.asking r i)⟩ :: ys⟩ slots) :
    ∃ slots', Inv g ⟨(perform g std s (.asking r i)).1,
      xs ++ [⟨(perform g std s (.asking r i)).2.1, (perform g std s (.asking r i)).2.2⟩] ++ ys⟩
      slots' := by
  have hok := h.jobOk
  have hi : i < g.size r.node := hok.bounds
  obtain ⟨hslot, _⟩ := hok.slot (i := i) (τ := .notified) hi (by simp [knows])
  have hx : r.data i ∈ (s.limiters (g.limiterOf (r.node, i))).notified :=
    (h.tracked.notified _ _).mpr ⟨.inr ⟨hok.registered, hi, hslot⟩, rfl⟩
  have hspec := Limiter.acquire_spec std hx (h.tracked.same_notified hx)
  simp only [perform, Shared.acquireFrom]
  generalize (s.limiters (g.limiterOf (r.node, i))).acquire std (r.data i) = result at hspec ⊢
  obtain ⟨l, _ | handle⟩ := result
  · refine h.acquired hspec hslot rfl hi (.inr ⟨rfl, rfl⟩) (by simp [knows]) ?_ rfl
    intro i' _ hne τ hτ
    simpa [knows, hne] using hτ
  · refine h.acquired hspec hslot rfl hi (.inl rfl) (by simp [knows]) ?_ rfl
    intro i' _ hne τ hτ
    simpa [knows, hne] using hτ

theorem Inv.store {handle : H} (h : Inv g ⟨s, xs ++ ⟨[], some (.granted r i handle)⟩ :: ys⟩ slots) :
    ∃ slots', Inv g ⟨(s.addCounter r.key (-1)).setHandle r.key i (some handle),
      xs ++ [⟨[], some (.acquiring r (i + 1))⟩] ++ ys⟩ slots' := by
  have hok := h.jobOk
  have hi : i < g.size r.node := hok.bounds
  obtain ⟨hslot, _⟩ := hok.slot (i := i) (τ := .fetched) hi (by simp [knows])
  change slots r.key i = .fetched at hslot
  have m : Moves g s ((s.addCounter r.key (-1)).setHandle r.key i (some handle))
      (xs ++ ⟨[], some (.granted r i handle)⟩ :: ys)
      (xs ++ [⟨[], some (.acquiring r (i + 1))⟩] ++ ys) slots (r.data i) .held [] :=
    Moves.store (x := r.data i) h.tracked
      (fun r' => (registered_setHandle _ _ _ r').trans (registered_addCounter _ _ r'))
      rfl hok.registered hi hslot
  refine ⟨_, h.moveOwn rfl m rfl ?_ ?_ h.fair ?_⟩
  · intro k hk
    change k ≠ r.key at hk
    change update (update s.requests r.key _) r.key _ k = _
    rw [update_of_ne hk, update_of_ne hk]
  · refine hok.move (c := -1) h.tracked m rfl hi (Nat.succ_le_of_lt hi)
      (congrArg isOpen hslot) ?_ ?_ ?_ rfl
    · simp [knows, Knowledge.Holds, isOpen]
    · intro i' _ hne τ hτ
      by_cases hlt : i' < i
      · simpa [knows, hlt, Nat.lt_succ_of_lt hlt] using hτ
      · have hle : ¬ i' < i + 1 := by omega
        simpa [knows, hlt, hle, hne] using hτ
    · intro d hd
      change s.requests r.key = some d at hd
      refine ⟨⟨d.id, d.notifyCounter + -1, update d.handles i (some handle)⟩, ?_, rfl, rfl,
        fun i' hne => update_of_ne hne _ _, fun _ => by simp⟩
      change update (update s.requests r.key _) r.key _ r.key = _
      simp [Shared.addCounter, Shared.modify, hd]
  · intro p hp
    by_cases hq : p = g.limiterOf (r.node, i)
    · exact .inl ⟨hq, rfl⟩
    · exact .inr ⟨hp, fun he => absurd he hq⟩

theorem Inv.finish (h : Inv g ⟨s, xs ++ ⟨[], none⟩ :: ys⟩ slots) : Inv g ⟨s, xs ++ ys⟩ slots := by
  have howners : owners (xs ++ (⟨[], none⟩ : Thread H) :: ys) = owners (xs ++ ys) := by
    simp [owners]
  constructor
  case tracked =>
    refine h.tracked.congr rfl (fun _ _ _ => Iff.rfl) ?_
    rw [deliveries_idle]
  case phases =>
    constructor
    case jobs =>
      intro t ht
      apply h.phases.jobs t
      simp only [mem_append, mem_cons] at ht ⊢
      tauto
    case nodup =>
      have := h.phases.nodup
      rwa [howners] at this
    case waiting =>
      intro k d hd hk
      apply h.phases.waiting k d hd
      rwa [howners]
  case fair => exact h.fair
  case pools => exact h.pools
  case ids => exact h.ids
  case finite => exact h.finite

theorem Inv.message {st : State H} (h : Inv g st slots) (node : Nat) (time : Int) :
    ∃ slots', Inv g ⟨(st.shared.formRequest g node time).1,
      st.threads ++ [⟨[], some (.requesting (st.shared.formRequest g node time).2 0)⟩]⟩ slots' := by
  set k₀ : Nat × Nat := (node, st.shared.counters node + 1) with hk₀
  set s' := (st.shared.formRequest g node time).1 with hs'
  have hfresh : st.shared.requests k₀ = none := by
    cases hr : st.shared.requests k₀ with
    | none => rfl
    | some d =>
      have := (h.ids k₀ d hr).2
      simp only [hk₀] at this
      omega
  have hself : s'.requests k₀ = some ⟨⟨st.shared.counters node + 1, time, g.priority node⟩,
      g.size node + 1, fun _ => none⟩ := update_self _ _ _
  have hother : ∀ k, k ≠ k₀ → s'.requests k = st.shared.requests k :=
    fun k hk => update_of_ne hk _ _
  have hold : ∀ k d, st.shared.requests k = some d → k ≠ k₀ := by
    rintro k d hd rfl
    rw [hfresh] at hd
    cases hd
  let slots' : Slots := update slots k₀ fun _ => .absent
  have hslots : ∀ k, k ≠ k₀ → slots' k = slots k := fun k hk => update_of_ne hk _ _
  have hslots₀ : ∀ i, slots' k₀ i = .absent := fun i => by simp [slots']
  have hentry : ∀ σ x, σ ≠ .absent →
      (Entry g s' slots' σ x ↔ Entry g st.shared slots σ x) := by
    intro σ x hσ
    by_cases hk : x.ref.key = k₀
    · constructor
      · rintro ⟨_, _, hslot⟩
        rw [hk, hslots₀] at hslot
        exact absurd hslot.symm hσ
      · rintro ⟨⟨d, hd, _⟩, _, _⟩
        exact absurd hk (hold _ d hd)
    · have hreg : Registered s' x.ref ↔ Registered st.shared x.ref := by
        rw [Registered, Registered, hother _ hk]
      constructor
      · rintro ⟨hr, hindex, hslot⟩
        rw [hslots _ hk] at hslot
        exact ⟨hreg.mp hr, hindex, hslot⟩
      · rintro ⟨hr, hindex, hslot⟩
        rw [← hslots _ hk] at hslot
        exact ⟨hreg.mpr hr, hindex, hslot⟩
  have howner : k₀ ∉ owners st.threads := by
    intro hmem
    obtain ⟨t, ht, hkey⟩ := mem_filterMap.mp hmem
    cases hj : t.job with
    | none => simp [hj] at hkey
    | some j =>
      rw [hj, map_some, some.injEq] at hkey
      obtain ⟨d, hd, _⟩ := (h.phases.jobs t ht j hj).data
      rw [hkey] at hd
      exact hold _ d hd rfl
  have howners : owners (st.threads ++
      [(⟨[], some (.requesting (st.shared.formRequest g node time).2 0)⟩ : Thread H)]) =
      owners st.threads ++ [k₀] := by
    rw [owners_append]
    rfl
  refine ⟨slots', ?_, ?_, h.fair, h.pools_congr rfl hentry, ?_, ?_⟩
  · refine h.tracked.congr rfl hentry ?_
    simp [deliveries]
  · constructor
    case jobs =>
      intro t ht j hj
      obtain ht | ht := mem_append.mp ht
      · have hold' := h.phases.jobs t ht j hj
        obtain ⟨d, hd, _⟩ := hold'.data
        have hne := hold _ d hd
        refine hold'.later (hother _ hne) fun i => ?_
        rw [hslots _ hne]
        exact .inl rfl
      · rw [mem_singleton.mp ht] at hj
        cases hj
        refine ⟨Nat.zero_le _, fun i _ => ?_, _, hself, rfl, ?_, ?_⟩
        · exact ⟨hslots₀ i, rfl⟩
        · have hzero : openCount slots' k₀ (g.size node) = 0 := by
            apply countP_eq_zero.mpr
            intro i _
            simp [hslots₀ i, isOpen]
          change (g.size node : Int) + 1 =
            ((1 + (g.size node - 0) : Nat) : Int) + (openCount slots' k₀ (g.size node) : Int)
          omega
        · intro i _ hheld
          exact absurd ((hslots₀ i).symm.trans hheld) (by simp)
    case nodup =>
      rw [howners]
      exact (perm_append_singleton k₀ _).nodup_iff.mpr
        (nodup_cons.mpr ⟨howner, h.phases.nodup⟩)
    case waiting =>
      intro k d hd hk
      rw [howners, mem_append, mem_singleton, not_or] at hk
      have hd' : st.shared.requests k = some d := (hother k hk.2).symm.trans hd
      refine (h.phases.waiting k d hd' hk.1).later fun i => ?_
      rw [hslots k hk.2]
      exact .inl rfl
  · intro k d hd
    change d.id.uniqueInteger = k.2 ∧ k.2 ≤
      update st.shared.counters node (st.shared.counters node + 1) k.1
    by_cases hk : k = k₀
    · subst hk
      rw [show s'.requests _ = _ from hself] at hd
      cases hd
      exact ⟨rfl, by simp [hk₀]⟩
    · obtain ⟨hid, hle⟩ := h.ids k d ((hother k hk).symm.trans hd)
      refine ⟨hid, le_trans hle ?_⟩
      by_cases hn : k.1 = node
      · rw [hn, update_self]
        exact Nat.le_succ _
      · rw [update_of_ne hn]
  · obtain ⟨keys, hkeys⟩ := h.finite
    refine ⟨k₀ :: keys, fun k d hd => ?_⟩
    by_cases hk : k = k₀
    · exact mem_cons.mpr (.inl hk)
    · exact mem_cons_of_mem _ (hkeys k d ((hother k hk).symm.trans hd))

end OneTbb.ResourceLimiter
