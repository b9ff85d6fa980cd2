import OneTbb.Tcm.Sound

/-!
# Thread composability manager: the sections keep states sound

Each operation takes a permit out of its place, moves resources and puts the permit
back. One lemma for each section says that a sound state is left sound.
-/

namespace OneTbb.Tcm

open State Function List Permit

variable {P : Platform} {out : Set Handle} {st : State} {h : Handle}

/-! ## The lazily deactivated permit -/

theorem Placed.grabLazyInactive (hp : Placed out st) : Placed out st.grabLazyInactive := by
  unfold State.grabLazyInactive
  cases hlazy : st.lazyInactivePermit with
  | none => exact hp
  | some l =>
    have hcontainer : ∀ k, (update st.rep l
        { st.rep l with concurrency := (st.rep l).concurrency.map fun _ => 0 } k).container =
        (st.rep k).container := by
      intro k
      by_cases hk : k = l
      · subst hk
        rw [update_self]
        rfl
      · rw [update_of_ne hk]
    constructor
    case allocated_nodup => exact hp.allocated_nodup
    case nodup => exact hp.nodup
    case mem_iff =>
      intro c k
      change _ ↔ k ∈ st.allocated ∧ k ∉ out ∧ (update st.rep l _ k).container = some c
      rw [hcontainer k, ← hp.mem_iff c k]
      exact Iff.rfl
    case lazy_inactive =>
      intro k hk
      cases hk
    case holdsOnlyOwned =>
      intro k hal hout _
      by_cases hk : k = l
      · subst hk
        intro _ _ n hn
        change n ∈ (update st.rep k _ k).concurrency at hn
        rw [update_self] at hn
        obtain ⟨_, _, rfl⟩ := mem_map.mp hn
        rfl
      · have hne : st.lazyInactivePermit ≠ some k := by
          rw [hlazy]
          intro heq
          exact hk (Option.some.inj heq).symm
        have hheld := hp.holdsOnlyOwned k hal hout hne
        change (update st.rep l _ k).HoldsOnlyOwned
        rw [update_of_ne hk]
        exact hheld

theorem Sound.grabLazyInactive (hs : Sound P out st) : Sound P out st.grabLazyInactive := by
  constructor
  case placed => exact hs.placed.grabLazyInactive
  case balanced =>
    unfold State.grabLazyInactive
    cases hlazy : st.lazyInactivePermit with
    | none => exact hs.balanced
    | some l =>
      obtain ⟨hal, _, _⟩ := hs.placed.lazy_inactive l hlazy
      have hset := hs.balanced.setPermit hal hs.placed.allocated_nodup
        { st.rep l with concurrency := (st.rep l).concurrency.map fun _ => 0 }
      have htransit : Balanced P ((st.rep l).concurrency.sum : Int)
          (st.setPermit l
            { st.rep l with concurrency := (st.rep l).concurrency.map fun _ => 0 }) := by
        apply hset.of_eq
        simp only [sum_map_zero]
        omega
      exact htransit.addAvailable_grant.noteTcmStateChange.congr rfl rfl rfl id

@[simp] theorem State.grabLazyInactive_allocated : st.grabLazyInactive.allocated = st.allocated := by
  unfold State.grabLazyInactive
  cases st.lazyInactivePermit with
  | none | some l => rfl

theorem State.mem_grabLazyInactive (hal : h ∈ st.allocated) :
    h ∈ st.grabLazyInactive.allocated := by
  rw [grabLazyInactive_allocated]
  exact hal

theorem State.mem_takeOut (hal : h ∈ st.allocated) :
    h ∈ (st.removePermit h (st.rep h).state).allocated := by
  rw [removePermit_allocated]
  exact hal

/-! ## Adjusting a permit -/

/-- The permit an operation has taken out is searched for, and is still out. -/
theorem Sound.adjustExistingPermit (hs : Sound P out st.grabLazyInactive)
    (hal : h ∈ st.allocated) : Sound P out (st.adjustExistingPermit P h).1 := by
  have hal' := mem_grabLazyInactive hal
  have hsearched := hs.searched hal'
  unfold State.adjustExistingPermit
  simp only
  split
  · exact hsearched
  · exact hsearched

/-- The changes found, applied, put the permit back. -/
theorem Sound.adjustExistingPermit_apply (hs : Sound P out st.grabLazyInactive)
    (hal : h ∈ st.allocated) (hout : h ∈ out) (hfound : (st.adjustExistingPermit P h).2.isEmpty = false) :
    Sound P (out \ {h})
      ((st.adjustExistingPermit P h).1.apply (st.adjustExistingPermit P h).2 (some h) false) := by
  have hal' := mem_grabLazyInactive hal
  have hsearched := hs.searched hal'
  revert hfound
  unfold State.adjustExistingPermit
  simp only
  split
  · intro hfound
    cases hfound
  · intro _
    exact hsearched.negotiate_initiator hal' hout (names_of_searched _ trySatisfyRequest_names)

/-! ## Requests -/

theorem Sound.write (hs : Sound P out st) (hal : h ∈ st.allocated) (hout : h ∈ out) {p : Permit}
    (hsum : p.concurrency.sum = (st.rep h).concurrency.sum) : Sound P out (st.setPermit h p) where
  placed := hs.placed.write hout p
  balanced := hs.balanced.setPermit_same hal hs.placed.allocated_nodup hsum

theorem Sound.snapshot (hs : Sound P out st) (hal : h ∈ st.allocated) (epoch : Nat) :
    Sound P out (st.setPermit h { st.rep h with tcmEpochSnapshot := epoch }) where
  placed := hs.placed.rewrite rfl rfl Iff.rfl
  balanced := hs.balanced.setPermit_same hal hs.placed.allocated_nodup rfl

theorem Permit.determineNestedPermit_eq (p : Permit) (top : Option Handle) :
    ∃ nested, p.determineNestedPermit h top = { p with isNested := nested } := by
  cases top with
  | none => exact ⟨false, rfl⟩
  | some t =>
    by_cases ht : h ≠ t
    · exact ⟨true, if_pos ht⟩
    · exact ⟨p.isNested, if_neg ht⟩

@[simp] theorem Permit.determineNestedPermit_concurrency (p : Permit) (top : Option Handle) :
    (p.determineNestedPermit h top).concurrency = p.concurrency := by
  obtain ⟨nested, heq⟩ := p.determineNestedPermit_eq (h := h) top
  rw [heq]

@[simp] theorem Permit.determineNestedPermit_state (p : Permit) (top : Option Handle) :
    (p.determineNestedPermit h top).state = p.state := by
  obtain ⟨nested, heq⟩ := p.determineNestedPermit_eq (h := h) top
  rw [heq]

@[simp] theorem State.adjustExistingPermit_allocated :
    (st.adjustExistingPermit P h).1.allocated = st.allocated := by
  unfold State.adjustExistingPermit
  simp only
  split
  · rw [setPermit_allocated, grabLazyInactive_allocated]
  · rw [setPermit_allocated, grabLazyInactive_allocated]

theorem State.grabLazyInactive_rep_of_ne (hne : st.lazyInactivePermit ≠ some h) :
    st.grabLazyInactive.rep h = st.rep h := by
  unfold State.grabLazyInactive
  cases hlazy : st.lazyInactivePermit with
  | none => rfl
  | some l =>
    have hl : h ≠ l := by
      rintro rfl
      exact hne hlazy
    exact update_of_ne hl _ _

theorem adjustExistingPermit_rep :
    ((st.adjustExistingPermit P h).1.rep h).state = (st.grabLazyInactive.rep h).state ∧
      ((st.adjustExistingPermit P h).1.rep h).concurrency =
        (st.grabLazyInactive.rep h).concurrency := by
  obtain ⟨masks, constraints, max, _, hsearched⟩ :=
    @trySatisfyRequest_permit P st.grabLazyInactive h
  have hadjusted : (st.adjustExistingPermit P h).1.rep h =
      (st.grabLazyInactive.trySatisfyRequest P h).2 := by
    unfold State.adjustExistingPermit
    simp only
    split
    · rw [setPermit_rep_self]
    · rw [setPermit_rep_self]
  rw [hadjusted, hsearched]
  exact ⟨rfl, rfl⟩

/-- How a permit is written before resources are looked for: only its request, its flags
and whether it is nested are new. -/
structure Permit.Asks (p q : Permit) (req : PermitRequest) : Prop where
  concurrency : q.concurrency = p.concurrency
  state : q.state = p.state
  clientId : q.clientId = p.clientId
  request : q.request = req

/-- Resources are found for a permit, and the changes are made. -/
def State.Finds (P : Platform) (st : State) (h : Handle) (st' : State) : Prop :=
  (st.adjustExistingPermit P h).2.isEmpty = false ∧
    st' = (st.adjustExistingPermit P h).1.apply (st.adjustExistingPermit P h).2 (some h) false

/-- A request writes the permit, lets it wait if nothing is found, and notes the epoch. -/
theorem State.requestResources_cases (P : Platform) (st : State) (h : Handle) (top : Option Handle)
    (sumMin : Int) (available : Nat) :
    ∃ p st', (st.rep h).Asks p (deduceRequestArguments P (st.rep h).request sumMin) ∧
      (st.requestResources P h top sumMin available).state =
        st'.setPermit h { st'.rep h with tcmEpochSnapshot := st'.tcmStateEpoch } ∧
      (st' = ((st.setPermit h p).adjustExistingPermit P h).1.addPermit h .pending ∨
        (st.setPermit h p).Finds P h st') := by
  obtain ⟨nested, hnested⟩ := (st.rep h).determineNestedPermit_eq (h := h) top
  let p : Permit := { st.rep h with
    isNested := nested, request := deduceRequestArguments P (st.rep h).request sumMin
    flags := { (st.rep h).flags with requestAsInactive := false } }
  unfold State.requestResources
  rw [hnested]
  refine ⟨p, _, ⟨rfl, rfl, rfl, rfl⟩, rfl, ?_⟩
  split
  · exact .inl rfl
  · rename_i hfound
    exact .inr ⟨Bool.eq_false_iff.mpr hfound, rfl⟩

/-- The activation of a permit without resources is such a request too. -/
theorem State.activateSearching_cases (P : Platform) (st : State) (h : Handle)
    (top : Option Handle) :
    ∃ p, (st.rep h).Asks p (st.rep h).request ∧
      (st.activateSearching P h top = (((st.setPermit h p).adjustExistingPermit P h).1.setPermit h
          { ((st.setPermit h p).adjustExistingPermit P h).1.rep h with
            state := .pending }).addPermit h .pending ∨
        (st.setPermit h p).Finds P h (st.activateSearching P h top)) := by
  obtain ⟨nested, hnested⟩ := (st.rep h).determineNestedPermit_eq (h := h) top
  let p : Permit := { st.rep h with
    isNested := nested, flags := { (st.rep h).flags with requestAsInactive := false } }
  unfold State.activateSearching
  rw [hnested]
  refine ⟨p, ⟨rfl, rfl, rfl, rfl⟩, ?_⟩
  dsimp only
  split
  · exact .inl rfl
  · rename_i hfound
    exact .inr ⟨Bool.eq_false_iff.mpr hfound, rfl⟩

/-- A request for a permit that is out and holds nothing ends with the permit in place,
active or pending. -/
theorem Sound.requestResources (hs : Sound P {h} st) (hal : h ∈ st.allocated)
    (hstate : (st.rep h).state = .pending) (hzero : ∀ n ∈ (st.rep h).concurrency, n = 0)
    (top : Option Handle) (sumMin : Int) (available : Nat) :
    Sound P ∅ (st.requestResources P h top sumMin available).state := by
  have hout : h ∈ ({h} : Set Handle) := Set.mem_singleton h
  obtain ⟨p, st', hp, heq, hcases⟩ := st.requestResources_cases P h top sumMin available
  rw [heq]
  have hwritten : Sound P {h} (st.setPermit h p) := hs.write hal hout (by rw [hp.concurrency])
  have hempty : ({h} : Set Handle) \ {h} = ∅ := Set.sdiff_self
  obtain rfl | ⟨hfound, rfl⟩ := hcases
  · -- nothing was found, the permit waits
    have hadjusted := hwritten.grabLazyInactive.adjustExistingPermit (P := P) hal
    obtain ⟨hs', hc'⟩ := @adjustExistingPermit_rep P (st.setPermit h p) h
    rw [grabLazyInactive_rep_of_ne (hwritten.placed.lazy_ne_of_out hout),
      setPermit_rep_self] at hs' hc'
    have hholds : (((st.setPermit h p).adjustExistingPermit P h).1.rep h).HoldsOnlyOwned := by
      intro _ _ n hn
      rw [hc', hp.concurrency] at hn
      exact hzero n hn
    have hal' : h ∈ ((st.setPermit h p).adjustExistingPermit P h).1.allocated := by
      rw [adjustExistingPermit_allocated]
      exact hal
    have hadd := hadjusted.placed.add hout hal' hholds
    rw [hs', hp.state, hstate, hempty] at hadd
    apply Sound.snapshot
    · exact ⟨hadd, hadjusted.balanced.addPermit _⟩
    · rw [addPermit_allocated]
      exact hal'
  · have happlied := hwritten.grabLazyInactive.adjustExistingPermit_apply (P := P) hal hout hfound
    rw [hempty] at happlied
    apply happlied.snapshot
    rw [apply_allocated, adjustExistingPermit_allocated]
    exact hal

theorem Sound.giveBack (hs : Sound P out st) (hal : h ∈ st.allocated) (hout : h ∈ out)
    {p : Permit} (hp : p.concurrency.sum = 0) :
    Sound P out ((st.setPermit h p).addAvailable (st.rep h).grant).noteTcmStateChange where
  placed := ((hs.placed.write hout p).addAvailable _).noteTcmStateChange
  balanced := by
    have hset := hs.balanced.setPermit hal hs.placed.allocated_nodup p
    have htransit : Balanced P ((st.rep h).concurrency.sum : Int) (st.setPermit h p) := by
      apply hset.of_eq
      omega
    exact htransit.addAvailable_grant.noteTcmStateChange

theorem Sound.remove (hs : Sound P out st) :
    Sound P (insert h out) (st.removePermit h (st.rep h).state) where
  placed := hs.placed.remove
  balanced := hs.balanced.removePermit _

theorem Sound.writeBack (hs : Sound P out st) (hal : h ∈ st.allocated) (hout : h ∈ out)
    {p : Permit} (hsum : p.concurrency.sum = (st.rep h).concurrency.sum)
    (hholds : p.HoldsOnlyOwned) :
    Sound P (out \ {h}) ((st.setPermit h p).addPermit h p.state) where
  placed := hs.placed.writeBack hout hal hholds
  balanced := (hs.balanced.setPermit_same hal hs.placed.allocated_nodup hsum).addPermit _

theorem Sound.allocate (hs : Sound P ∅ st) (hnew : h ∉ st.allocated) {p : Permit}
    (hp : p.concurrency.sum = 0) :
    Sound P {h} { st.setPermit h p with allocated := h :: st.allocated } := by
  have hne : ∀ k ∈ st.allocated, k ≠ h := by
    rintro k hk rfl
    exact hnew hk
  constructor
  case placed =>
    constructor
    case allocated_nodup => exact nodup_cons.mpr ⟨hnew, hs.placed.allocated_nodup⟩
    case nodup => exact hs.placed.nodup
    case mem_iff =>
      intro c k
      have hmem : k ∈ st.members c ↔ k ∈ st.allocated ∧ k ∉ (∅ : Set Handle) ∧
          (st.rep k).container = some c := hs.placed.mem_iff c k
      change k ∈ st.members c ↔ k ∈ h :: st.allocated ∧ k ∉ ({h} : Set Handle) ∧
        (update st.rep h p k).container = some c
      rw [hmem]
      constructor
      · rintro ⟨hk, _, hc⟩
        refine ⟨mem_cons_of_mem h hk, hne k hk, ?_⟩
        rw [update_of_ne (hne k hk)]
        exact hc
      · rintro ⟨hk, hout, hc⟩
        have hkh : k ≠ h := hout
        rw [update_of_ne hkh] at hc
        exact ⟨(mem_cons.mp hk).resolve_left hkh, Set.notMem_empty k, hc⟩
    case lazy_inactive =>
      intro k hk
      obtain ⟨hal, _, hstate⟩ := hs.placed.lazy_inactive k hk
      refine ⟨mem_cons_of_mem h hal, hne k hal, ?_⟩
      change (update st.rep h p k).state = _
      rw [update_of_ne (hne k hal)]
      exact hstate
    case holdsOnlyOwned =>
      intro k hk hout hlazy
      have hkh : k ≠ h := hout
      have hal := (mem_cons.mp hk).resolve_left hkh
      change (update st.rep h p k).HoldsOnlyOwned
      rw [update_of_ne hkh]
      exact hs.placed.holdsOnlyOwned k hal (Set.notMem_empty k) hlazy
  case balanced =>
    have hheld : ({ st.setPermit h p with allocated := h :: st.allocated } : State).held =
        st.held := by
      change Ledger.total (fun p : Permit => p.concurrency.sum) (update st.rep h p)
        (h :: st.allocated) = _
      rw [Ledger.total_cons, update_self, hp, zero_add,
        Ledger.total_update_of_notMem hnew]
      rfl
    constructor
    case available_lt => exact hs.balanced.available_lt
    case modulo =>
      rw [hheld]
      exact hs.balanced.modulo
    case exact =>
      intro hw
      rw [hheld]
      exact hs.balanced.exact hw

theorem makeNewPermit_concurrency_eq_zero (client : ClientId) (req : PermitRequest) :
    ∀ n ∈ (makeNewPermit client req).concurrency, n = 0 :=
  fun _ hn => eq_of_mem_replicate hn

theorem released_concurrency_eq_zero (p : Permit) (s : PermitState) :
    ∀ n ∈ (p.released s).concurrency, n = 0 := by
  intro n hn
  obtain ⟨_, _, rfl⟩ := mem_map.mp hn
  rfl

theorem Sound.requestNewPermit (hs : Sound P ∅ st) {client : ClientId} {req : PermitRequest}
    {handle : Option Handle} (hnew : ∀ h, handle = some h → h ∉ st.allocated)
    (top : Option Handle) :
    Sound P ∅ (st.requestNewPermit P client req handle top).state := by
  unfold State.requestNewPermit
  split
  · exact hs
  · exact hs
  · rename_i sumMin h _
    have hzero := makeNewPermit_concurrency_eq_zero client req
    have hmade := hs.allocate (hnew h rfl) (sum_eq_zero hzero)
    have hal : h ∈ h :: st.allocated := mem_cons_self
    split
    · -- requested as inactive, the permit belongs to no container
      rename_i hinactive
      have hstate : (makeNewPermit client req).state = .inactive := by
        unfold makeNewPermit
        simp only [hinactive, if_true]
      have hadd := hmade.placed.add (Set.mem_singleton h) hal (by
        rw [setPermit_rep_self]
        exact fun _ _ => hzero)
      simp only [setPermit_rep_self, hstate, Set.sdiff_self] at hadd
      exact ⟨hadd, hmade.balanced⟩
    · rename_i hactive
      have hstate : (makeNewPermit client req).state = .pending := by
        unfold makeNewPermit
        simp only [hactive]
        rfl
      apply Sound.requestResources
      · exact ⟨hmade.placed.congr rfl rfl (fun _ => rfl) rfl,
          hmade.balanced.congr rfl rfl rfl id⟩
      · exact hal
      · change (update st.rep h _ h).state = _
        rw [update_self]
        exact hstate
      · change ∀ n ∈ (update st.rep h _ h).concurrency, n = 0
        rw [update_self]
        exact hzero

/-- Taken out, a permit of a state without others out is the only one. -/
theorem Sound.takeOut (hs : Sound P ∅ st) :
    Sound P {h} (st.removePermit h (st.rep h).state) := by
  have hremoved := hs.remove (h := h)
  rw [insert_empty_eq] at hremoved
  exact hremoved

theorem Sound.requestExistingPermit (hs : Sound P ∅ st) (hal : h ∈ st.allocated)
    (req : PermitRequest) (top : Option Handle) :
    Sound P ∅ (st.requestExistingPermit P h req top).state := by
  have hout : h ∈ ({h} : Set Handle) := Set.mem_singleton h
  unfold State.requestExistingPermit
  simp only
  split
  · exact hs
  · rename_i sumMin _
    split
    · split
      · exact hs
      · rename_i hcond
        have hstate : (st.rep h).state = .inactive := by
          by_contra hne
          exact hcond (.inl hne)
        constructor
        case placed =>
          refine hs.placed.rewrite ?_ ?_ ?_
          · rfl
          · unfold container
            simp only [hstate]
          · exact Iff.rfl
        case balanced => exact hs.balanced.setPermit_same hal hs.placed.allocated_nodup rfl
    · generalize hp : ({ st.rep h with request := copyRequest (st.rep h).request req false }
        : Permit).released .pending = p
      have hzero : ∀ n ∈ p.concurrency, n = 0 := by
        rw [← hp]
        exact released_concurrency_eq_zero _ _
      have hstate : p.state = .pending := by
        rw [← hp]
        rfl
      have hmoved := (hs.takeOut (h := h)).giveBack (mem_takeOut hal) hout (sum_eq_zero hzero)
      rw [removePermit_rep] at hmoved
      have hrep : ((((st.removePermit h (st.rep h).state).setPermit h p).addAvailable
          (st.rep h).grant).noteTcmStateChange).rep h = p := setPermit_rep_self _ h p
      apply Sound.requestResources hmoved
      · exact mem_takeOut hal
      · rw [hrep]
        exact hstate
      · rw [hrep]
        exact hzero

/-! ## Idling, activating and deactivating -/

/-- Writing a permit and taking it out commute, if the rigid flag and the constraints
that decide about its container stay. -/
theorem State.removePermit_setPermit (p : Permit) (s : PermitState)
    (hp : p.participatesInSubscriptionCompute = (st.rep h).participatesInSubscriptionCompute) :
    (st.setPermit h p).removePermit h s = (st.removePermit h s).setPermit h p := by
  have hdrop : (st.setPermit h p).dropLazy h = (st.dropLazy h).setPermit h p := by
    unfold State.dropLazy
    by_cases hlazy : st.lazyInactivePermit = some h
    · rw [if_pos hlazy]
      exact if_pos hlazy
    · rw [if_neg hlazy]
      exact if_neg hlazy
  cases s with
  | pending | idle => rfl
  | inactive => exact hdrop
  | active =>
    unfold State.removePermit
    simp only [setPermit_rep_self, hp]
    split
    · rfl
    · exact hdrop

theorem holdsOnlyOwned_of_running {p : Permit} (hp : p.state = .idle ∨ p.state = .active) :
    p.HoldsOnlyOwned := by
  intro _ hs
  obtain hp | hp := hp
  · rw [hp] at hs
    obtain hs | hs := hs <;> cases hs
  · rw [hp] at hs
    obtain hs | hs := hs <;> cases hs

section

variable (hs : Sound P ∅ st) (hal : h ∈ st.allocated)
include hs hal

/-- A permit taken out of its place and written with the same resources, put back. -/
theorem Sound.replace {p : Permit}
    (hsum : p.concurrency.sum = (st.rep h).concurrency.sum) (hholds : p.HoldsOnlyOwned) :
    Sound P ∅ (((st.removePermit h (st.rep h).state).setPermit h p).addPermit h p.state) := by
  have hback := (hs.takeOut (h := h)).writeBack (mem_takeOut hal) (Set.mem_singleton h) (by
    rw [removePermit_rep]
    exact hsum) hholds
  rw [Set.sdiff_self] at hback
  exact hback

theorem Sound.idlePermit :
    Sound P ∅ (st.idlePermit h).state := by
  unfold State.idlePermit
  simp only
  split
  · exact hs
  · rename_i hactive
    have hstate : (st.rep h).state = .active := by
      by_contra hne
      exact hactive hne
    have hreplaced := hs.replace hal (p := { st.rep h with state := .idle }) rfl
      (holdsOnlyOwned_of_running (.inl rfl))
    rw [hstate] at hreplaced
    rw [removePermit_setPermit]
    · exact hreplaced
    · rfl

theorem Sound.activateUnchanged (top : Option Handle) : Sound P ∅ (st.activateUnchanged h top) := by
  have hstate : (({ st.rep h with state := .active } : Permit).determineNestedPermit h top).state =
      .active := determineNestedPermit_state _ _
  have hreplaced := hs.replace hal
    (p := ({ st.rep h with state := .active } : Permit).determineNestedPermit h top)
    (by rw [determineNestedPermit_concurrency])
    (holdsOnlyOwned_of_running (.inr hstate))
  rw [hstate] at hreplaced
  exact hreplaced

end

@[simp] theorem State.grabLazyInactive_lazy : st.grabLazyInactive.lazyInactivePermit = none := by
  unfold State.grabLazyInactive
  cases hlazy : st.lazyInactivePermit with
  | none => exact hlazy
  | some l => rfl

theorem State.grabLazyInactive_state : (st.grabLazyInactive.rep h).state = (st.rep h).state := by
  unfold State.grabLazyInactive
  cases st.lazyInactivePermit with
  | none => rfl
  | some l =>
    change (update st.rep l _ h).state = _
    by_cases hl : h = l
    · subst hl
      rw [update_self]
    · rw [update_of_ne hl]

/-- An inactive permit other than the lazy one is in no place to be taken out of. -/
theorem Sound.outside (hs : Sound P ∅ st) (hstate : (st.rep h).state = .inactive)
    (hlazy : st.lazyInactivePermit = none) : Sound P {h} st := by
  have hcontainer : (st.rep h).container = none := by
    unfold container
    rw [hstate]
  constructor
  case placed =>
    constructor
    case allocated_nodup => exact hs.placed.allocated_nodup
    case nodup => exact hs.placed.nodup
    case mem_iff =>
      intro c k
      rw [hs.placed.mem_iff c k]
      constructor
      · rintro ⟨hal, _, hc⟩
        refine ⟨hal, ?_, hc⟩
        rintro rfl
        rw [hcontainer] at hc
        cases hc
      · rintro ⟨hal, _, hc⟩
        exact ⟨hal, Set.notMem_empty k, hc⟩
    case lazy_inactive =>
      intro k hk
      rw [hlazy] at hk
      cases hk
    case holdsOnlyOwned =>
      intro k hal _ hk
      exact hs.placed.holdsOnlyOwned k hal (Set.notMem_empty k) hk
  case balanced => exact hs.balanced

/-- Noting the nesting of an inactive permit leaves it where it is. -/
theorem Sound.activationWritten (hs : Sound P ∅ st) (hal : h ∈ st.allocated)
    (hstate : (st.rep h).state = .inactive) {p : Permit} {req : PermitRequest}
    (hp : (st.rep h).Asks p req) : Sound P ∅ (st.setPermit h p) := by
  constructor
  case placed =>
    refine hs.placed.rewrite hp.state ?_ ?_
    · unfold container
      simp only [hp.state, hstate]
    · unfold Permit.HoldsOnlyOwned
      rw [hp.concurrency, hp.state]
  case balanced =>
    exact hs.balanced.setPermit_same hal hs.placed.allocated_nodup (by rw [hp.concurrency])

theorem Sound.activateSearching (hs : Sound P ∅ st) (hal : h ∈ st.allocated)
    (hstate : (st.rep h).state = .inactive) (top : Option Handle) :
    Sound P ∅ (st.activateSearching P h top) := by
  obtain ⟨p, hp, hcases⟩ := st.activateSearching_cases P h top
  have hgrabbed := (hs.activationWritten hal hstate hp).grabLazyInactive
  have hgstate : ((st.setPermit h p).grabLazyInactive.rep h).state = .inactive := by
    rw [grabLazyInactive_state, setPermit_rep_self, hp.state, hstate]
  have houtside := hgrabbed.outside hgstate grabLazyInactive_lazy
  have hout : h ∈ ({h} : Set Handle) := Set.mem_singleton h
  obtain heq | ⟨hfound, heq⟩ := hcases
  · -- nothing was found, the permit starts to wait
    have hadjusted := houtside.adjustExistingPermit (P := P) hal
    obtain ⟨_, hc'⟩ := @adjustExistingPermit_rep P (st.setPermit h p) h
    have hal' : h ∈ ((st.setPermit h p).adjustExistingPermit P h).1.allocated := by
      rw [adjustExistingPermit_allocated]
      exact hal
    have hzero := hgrabbed.placed.holdsOnlyOwned h (mem_grabLazyInactive hal)
      (Set.notMem_empty h) (by
        rw [grabLazyInactive_lazy]
        intro heq
        cases heq)
    have hback := hadjusted.writeBack hal' hout
      (p := { ((st.setPermit h p).adjustExistingPermit P h).1.rep h with state := .pending }) rfl
      (by
        intro hsingle _ n hn
        change n ∈ (((st.setPermit h p).adjustExistingPermit P h).1.rep h).concurrency at hn
        change (((st.setPermit h p).adjustExistingPermit P h).1.rep h).concurrency.length ≤ 1
          at hsingle
        rw [hc'] at hn hsingle
        exact hzero hsingle (.inr hgstate) n hn)
    rw [Set.sdiff_self] at hback
    rw [heq]
    exact hback
  · have happlied := houtside.adjustExistingPermit_apply (P := P) hal hout hfound
    rw [Set.sdiff_self] at happlied
    rw [heq]
    exact happlied

/-- What is in transit only because a word wrapped does not count. -/
theorem Balanced.settle {transit : Int} (hb : Balanced P transit st)
    (hmod : transit % 4294967296 = 0) (hexact : st.wrapped = false → transit = 0) :
    Balanced P 0 st where
  available_lt := hb.available_lt
  modulo := by
    have := hb.modulo
    omega
  exact := by
    intro hw
    have h₁ := hb.exact hw
    have h₂ := hexact hw
    omega

/-- The available resources a permit with resources takes in addition. -/
theorem Sound.activateTopUp (hs : Sound P out st) (hal : h ∈ st.allocated) (hout : h ∈ out)
    (hne : (st.rep h).concurrency ≠ []) : Sound P out (st.activateTopUp h) := by
  unfold State.activateTopUp
  simp only
  split
  · generalize hchange : min st.availableConcurrency
      (Word.sub (Word.ofInt (st.rep h).request.maxSwThreads) (st.rep h).inherited -
        (st.rep h).grant) = change
    have hle : change ≤ st.availableConcurrency := by omega
    obtain ⟨g, rest, hconc⟩ := exists_cons_of_ne_nil hne
    have hsum : ((st.rep h).concurrency.modify 0 (Word.add · change)).sum =
        Word.add g change + rest.sum := by
      rw [hconc, modify_zero_cons, sum_cons]
    have hheld : (st.rep h).concurrency.sum ≤ st.held :=
      Ledger.le_total (w := fun p : Permit => p.concurrency.sum) hal
    have hold : (st.rep h).concurrency.sum = g + rest.sum := by rw [hconc, sum_cons]
    have htaken := hs.balanced.addAvailable (-(change : Int))
    have hset := htaken.setPermit (h := h) hal hs.placed.allocated_nodup
      { st.rep h with concurrency := (st.rep h).concurrency.modify 0 (Word.add · change) }
    constructor
    case placed =>
      exact ((hs.placed.addAvailable _).write hout _).noteTcmStateChange
    case balanced =>
      apply Balanced.noteTcmStateChange
      apply hset.settle
      · change (0 - -(change : Int) + (((st.rep h).concurrency.sum : Int) -
          (((st.rep h).concurrency.modify 0 (Word.add · change)).sum : Nat))) % _ = 0
        rw [hsum, hold]
        unfold Word.add
        omega
      · intro hw
        change (0 - -(change : Int) + (((st.rep h).concurrency.sum : Int) -
          (((st.rep h).concurrency.modify 0 (Word.add · change)).sum : Nat))) = 0
        have hunwrapped : st.wrapped = false := (Bool.or_eq_false_iff.mp hw).1
        have htotal := hs.balanced.exact hunwrapped
        have hlt := P.platformResources_lt
        rw [hsum, hold, Word.add_of_lt (by omega)]
        omega
  · exact hs

@[simp] theorem State.activateTopUp_allocated : (st.activateTopUp h).allocated = st.allocated := by
  unfold State.activateTopUp
  simp only
  split
  · rfl
  · rfl

theorem Sound.activateGranted (hs : Sound P ∅ st) (hal : h ∈ st.allocated)
    (hgrant : (st.rep h).grant ≠ 0) (top : Option Handle) :
    Sound P ∅ (st.activateGranted h top) := by
  have hout : h ∈ ({h} : Set Handle) := Set.mem_singleton h
  have hne : (st.rep h).concurrency ≠ [] := by
    intro hnil
    apply hgrant
    unfold grant
    rw [hnil]
    rfl
  have hal' := mem_takeOut hal
  have hnested : Sound P {h} ((st.removePermit h (st.rep h).state).setPermit h
      ((st.rep h).determineNestedPermit h top)) := by
    apply hs.takeOut.write hal' hout
    rw [removePermit_rep, determineNestedPermit_concurrency]
  have htopped := hnested.activateTopUp hal' hout (by
    rw [setPermit_rep_self, determineNestedPermit_concurrency]
    exact hne)
  have hal'' : h ∈ (((st.removePermit h (st.rep h).state).setPermit h
      ((st.rep h).determineNestedPermit h top)).activateTopUp h).allocated := by
    rw [activateTopUp_allocated]
    exact hal'
  unfold State.activateGranted
  simp only
  generalize ((st.removePermit h (st.rep h).state).setPermit h
    ((st.rep h).determineNestedPermit h top)).activateTopUp h = topped at htopped hal''
  have hback := htopped.writeBack hal'' hout (p := { topped.rep h with state := .active }) rfl
    (holdsOnlyOwned_of_running (.inr rfl))
  rw [Set.sdiff_self] at hback
  exact hback

/-- An idle permit without resources is activated only if nothing has changed: the search
would leave it among the idle ones. -/
def State.ActivatesInPlace (st : State) : Call → Prop
  | .activate h _ => (st.rep h).state = .idle → (st.rep h).grant = 0 →
      st.isUnchangedFor (st.rep h) = true
  | _ => True

@[simp] theorem State.activateGranted_allocated (top : Option Handle) :
    (st.activateGranted h top).allocated = st.allocated := by
  unfold State.activateGranted
  simp only [addPermit_allocated, setPermit_allocated, activateTopUp_allocated,
    removePermit_allocated]

@[simp] theorem State.activateSearching_allocated (top : Option Handle) :
    (st.activateSearching P h top).allocated = st.allocated := by
  unfold State.activateSearching
  simp only
  split
  · simp only [addPermit_allocated, setPermit_allocated,
      adjustExistingPermit_allocated]
  · simp only [apply_allocated, adjustExistingPermit_allocated,
      setPermit_allocated]

/-- A permit activated in place by a search is an inactive one. -/
theorem State.inactive_of_searching {top : Option Handle} (hactive : (st.rep h).state ≠ .active)
    (hpending : (st.rep h).state ≠ .pending) (hchanged : ¬ st.isUnchangedFor (st.rep h) = true)
    (hgrant : (st.rep h).grant = 0) (hguard : st.ActivatesInPlace (.activate h top)) :
    (st.rep h).state = .inactive := by
  cases hstate : (st.rep h).state with
  | inactive => rfl
  | pending => exact absurd hstate hpending
  | active => exact absurd hstate hactive
  | idle => exact absurd (hguard hstate hgrant) hchanged

theorem Sound.activatePermit (hs : Sound P ∅ st) (hal : h ∈ st.allocated) (top : Option Handle)
    (hguard : st.ActivatesInPlace (.activate h top)) :
    Sound P ∅ (st.activatePermit P h top).state := by
  unfold State.activatePermit
  simp only
  split
  · exact hs
  · rename_i hactive
    split
    · exact hs
    · rename_i hpending
      split
      · exact hs.activateUnchanged hal top
      · rename_i hchanged
        apply Sound.snapshot
        · split
          · rename_i hgrant
            exact hs.activateGranted hal hgrant top
          · rename_i hgrant
            exact hs.activateSearching hal (inactive_of_searching hactive hpending hchanged
              (not_not.mp hgrant) hguard) top
        · split
          · rw [activateGranted_allocated]
            exact hal
          · rw [activateSearching_allocated]
            exact hal

/-- An inactive permit without resources needs no place. -/
theorem Sound.rest (hs : Sound P {h} st) (hal : h ∈ st.allocated)
    (hstate : (st.rep h).state = .inactive)
    (hzero : (st.rep h).concurrency.length ≤ 1 → ∀ n ∈ (st.rep h).concurrency, n = 0) :
    Sound P ∅ st := by
  have hadd := hs.placed.add (Set.mem_singleton h) hal fun hsingle _ => hzero hsingle
  rw [hstate, Set.sdiff_self] at hadd
  exact ⟨hadd, hs.balanced⟩

/-- A permit that is out becomes the lazily deactivated one and keeps its resources. -/
theorem Sound.restLazily (hs : Sound P {h} st) (hal : h ∈ st.allocated)
    (hstate : (st.rep h).state = .inactive) (hlazy : st.lazyInactivePermit = none) :
    Sound P ∅ { st with lazyInactivePermit := some h } := by
  have hcontainer : (st.rep h).container = none := by
    unfold container
    rw [hstate]
  constructor
  case placed =>
    constructor
    case allocated_nodup => exact hs.placed.allocated_nodup
    case nodup => exact hs.placed.nodup
    case mem_iff =>
      intro c k
      apply (hs.placed.mem_iff c k).trans
      constructor
      · rintro ⟨hk, _, hc⟩
        exact ⟨hk, Set.notMem_empty k, hc⟩
      · rintro ⟨hk, _, hc⟩
        refine ⟨hk, ?_, hc⟩
        rintro rfl
        change (st.rep k).container = some c at hc
        rw [hcontainer] at hc
        cases hc
    case lazy_inactive =>
      intro k hk
      have hkh : h = k := Option.some.inj hk
      subst hkh
      exact ⟨hal, Set.notMem_empty h, hstate⟩
    case holdsOnlyOwned =>
      intro k hk _ hne
      have hkh : k ∉ ({h} : Set Handle) := by
        rintro rfl
        exact hne rfl
      apply hs.placed.holdsOnlyOwned k hk hkh
      rw [hlazy]
      intro heq
      cases heq
  case balanced => exact hs.balanced.congr rfl rfl rfl id

theorem Sound.deactivateRunning (hs : Sound P ∅ st) (hal : h ∈ st.allocated) :
    Sound P ∅ (((st.removePermit h (st.rep h).state).setPermit h
        ((st.rep h).released .inactive)).addAvailable (st.rep h).grant).noteTcmStateChange := by
  have hal' := mem_takeOut hal
  have hzero := released_concurrency_eq_zero (st.rep h) .inactive
  have hfreed := (hs.takeOut (h := h)).giveBack hal' (Set.mem_singleton h)
    (sum_eq_zero hzero)
  rw [removePermit_rep] at hfreed
  have hrep : (((st.removePermit h (st.rep h).state).setPermit h
      ((st.rep h).released .inactive)).addAvailable (st.rep h).grant).noteTcmStateChange.rep h =
      (st.rep h).released .inactive := setPermit_rep_self _ h _
  apply hfreed.rest hal'
  · rw [hrep]
    rfl
  · rw [hrep]
    exact fun _ => hzero

theorem Sound.deactivatePermit (hs : Sound P ∅ st) (hal : h ∈ st.allocated) :
    Sound P ∅ (st.deactivatePermit h).state := by
  have hal' := mem_takeOut hal
  have hwritten : Sound P {h} ((st.removePermit h (st.rep h).state).setPermit h
      { st.rep h with state := .inactive }) := by
    apply hs.takeOut.write hal' (Set.mem_singleton h)
    rw [removePermit_rep]
  have hlazy : (st.removePermit h (st.rep h).state).lazyInactivePermit ≠ some h :=
    (hs.takeOut (h := h)).placed.lazy_ne_of_out (Set.mem_singleton h)
  unfold State.deactivatePermit
  simp only
  split
  · exact hs
  · rename_i hpending
    apply hwritten.rest hal'
    · rw [setPermit_rep_self]
    · rw [setPermit_rep_self]
      intro hsingle
      refine hs.placed.holdsOnlyOwned h hal (Set.notMem_empty h) ?_ hsingle (.inl hpending)
      intro heq
      have := (hs.placed.lazy_inactive h heq).2.2
      rw [hpending] at this
      cases this
  · split
    · exact hs.deactivateRunning hal
    · rename_i hkept
      simp only [Bool.or_eq_true, not_or, Bool.and_eq_true, bne_iff_ne, ne_eq, not_and,
        not_not] at hkept
      apply hwritten.restLazily hal'
      · rw [setPermit_rep_self]
      · change (st.removePermit h (st.rep h).state).lazyInactivePermit = none
        cases hl : (st.removePermit h (st.rep h).state).lazyInactivePermit with
        | none => rfl
        | some l =>
          rw [hl] at hkept hlazy
          exact absurd (hkept.1 rfl) hlazy

/-! ## Permits that leave -/

theorem Sound.clearUpPermits {handles : List Handle} (hs : Sound P out st) :
    Sound P ({k | k ∈ handles} ∪ out) (handles.foldl State.clearUpPermit st) := by
  induction handles generalizing st out with
  | nil =>
    have hnone : {k | k ∈ ([] : List Handle)} ∪ out = out := by simp
    rw [hnone]
    exact hs
  | cons k rest ih =>
    have hsplit : {j | j ∈ k :: rest} ∪ out = {j | j ∈ rest} ∪ insert k out := by
      ext j
      simp only [Set.mem_union, Set.mem_ofPred_eq, mem_cons, Set.mem_insert_iff]
      tauto
    rw [hsplit]
    exact ih hs.remove

theorem foldl_clearUpPermit_frame (handles : List Handle) :
    (handles.foldl State.clearUpPermit st).rep = st.rep ∧
      (handles.foldl State.clearUpPermit st).allocated = st.allocated := by
  induction handles generalizing st with
  | nil => exact ⟨rfl, rfl⟩
  | cons k rest ih =>
    obtain ⟨hrep, hal⟩ := @ih (st.clearUpPermit k)
    refine ⟨hrep.trans ?_, hal.trans ?_⟩
    · exact removePermit_rep _ _ _
    · exact removePermit_allocated _ _ _

theorem Sound.leave {handles : List Handle} (hs : Sound P {k | k ∈ handles} st)
    (hn : handles.Nodup) (hal : ∀ k ∈ handles, k ∈ st.allocated) :
    Sound P ∅ { (st.addAvailable (Word.sum (handles.map fun k => (st.rep k).grant)))
      with allocated := st.allocated.filter (· ∉ handles) } := by
  have hkept : ∀ k, k ∈ st.allocated.filter (· ∉ handles) ↔ k ∈ st.allocated ∧ k ∉ handles := by
    intro k
    rw [mem_filter, decide_eq_true_eq]
  constructor
  case placed =>
    constructor
    case allocated_nodup => exact hs.placed.allocated_nodup.filter _
    case nodup => exact hs.placed.nodup
    case mem_iff =>
      intro c k
      have hmem : k ∈ st.members c ↔ k ∈ st.allocated ∧ k ∉ handles ∧
          (st.rep k).container = some c := hs.placed.mem_iff c k
      change k ∈ st.members c ↔ k ∈ st.allocated.filter (· ∉ handles) ∧ _ ∧
        (st.rep k).container = some c
      rw [hmem, hkept k]
      constructor
      · rintro ⟨hk, hgone, hc⟩
        exact ⟨⟨hk, hgone⟩, Set.notMem_empty k, hc⟩
      · rintro ⟨⟨hk, hgone⟩, _, hc⟩
        exact ⟨hk, hgone, hc⟩
    case lazy_inactive =>
      intro k hk
      obtain ⟨hk', hgone, hstate⟩ := hs.placed.lazy_inactive k hk
      exact ⟨(hkept k).mpr ⟨hk', hgone⟩, Set.notMem_empty k, hstate⟩
    case holdsOnlyOwned =>
      intro k hk _ hlazy
      obtain ⟨hk', hgone⟩ := (hkept k).mp hk
      exact hs.placed.holdsOnlyOwned k hk' hgone hlazy
  case balanced =>
    have hheld : ({ st with allocated := st.allocated.filter (· ∉ handles) } : State).held +
        (handles.map fun k => (st.rep k).concurrency.sum).sum = st.held :=
      Ledger.total_filter_notMem hs.placed.allocated_nodup hn hal
    have hgone : Balanced P ((handles.map fun k => (st.rep k).concurrency.sum).sum : Nat)
        { st with allocated := st.allocated.filter (· ∉ handles) } := by
      constructor
      case available_lt => exact hs.balanced.available_lt
      case modulo =>
        rw [← hs.balanced.modulo]
        simp only
        omega
      case exact =>
        intro hw
        rw [← hs.balanced.exact hw]
        simp only
        omega
    have hback := hgone.addAvailable_grant
    rw [← Word.sum_map_sum] at hback
    exact hback.congr rfl rfl rfl id

theorem Sound.congr {st' : State} (hs : Sound P out st) (hrep : st'.rep = st.rep)
    (hal : st'.allocated = st.allocated) (hmem : ∀ c, st'.members c = st.members c)
    (hlazy : st'.lazyInactivePermit = st.lazyInactivePermit)
    (havail : st'.availableConcurrency = st.availableConcurrency)
    (hwrapped : st'.wrapped = st.wrapped) : Sound P out st' where
  placed := hs.placed.congr hrep hal hmem hlazy
  balanced := hs.balanced.congr havail hrep hal (by rw [hwrapped]; exact id)

/-- The map from clients to permits plays no part in taking a permit out. -/
theorem State.removePermit_clientToPermit (registry : List (ClientId × Handle)) (s : PermitState) :
    ({ st with clientToPermit := registry } : State).removePermit h s =
      { st.removePermit h s with clientToPermit := registry } := by
  have hdrop : ({ st with clientToPermit := registry } : State).dropLazy h =
      { st.dropLazy h with clientToPermit := registry } := by
    unfold State.dropLazy
    by_cases hlazy : st.lazyInactivePermit = some h
    · simp only [if_pos hlazy]
    · simp only [if_neg hlazy]
  cases s with
  | pending | idle => rfl
  | inactive => exact hdrop
  | active =>
    unfold State.removePermit
    simp only
    split
    · rfl
    · exact hdrop

theorem Sound.releasePermit (hs : Sound P ∅ st) (hal : h ∈ st.allocated) :
    Sound P ∅ (st.releasePermit h).state := by
  have hone : ({h} : Set Handle) = {k | k ∈ [h]} := by
    ext k
    simp
  have hout : Sound P {k | k ∈ [h]} (st.removePermit h (st.rep h).state) := hone ▸ hs.takeOut
  have hleft := hout.leave (nodup_singleton h) (by
    intro k hk
    rw [mem_singleton.mp hk, removePermit_allocated]
    exact hal)
  have hgrant : Word.sum ([h].map fun k => ((st.removePermit h (st.rep h).state).rep k).grant) =
      (st.rep h).grant := by
    rw [removePermit_rep, map_singleton]
    exact Word.add_of_lt (by rw [zero_add]; exact Word.sum_lt _) |>.trans (zero_add _)
  have herase : st.allocated.erase h = st.allocated.filter (· ∉ [h]) := by
    rw [hs.placed.allocated_nodup.erase_eq_filter]
    apply filter_congr
    intro k _
    by_cases hk : k = h
    · simp [hk]
    · simp [hk]
  rw [hgrant] at hleft
  unfold State.releasePermit
  simp only [removePermit_clientToPermit]
  apply hleft.congr
  case hrep => rfl
  case hal =>
    change (st.removePermit h (st.rep h).state).allocated.erase h = _
    rw [removePermit_allocated]
    exact herase
  case hmem => exact fun _ => rfl
  case hlazy => rfl
  case havail => rfl
  case hwrapped => rfl

end OneTbb.Tcm
