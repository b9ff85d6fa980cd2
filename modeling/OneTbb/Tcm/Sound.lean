import OneTbb.Tcm.Balance

/-!
# Thread composability manager: sound states

A state is sound when every permit is where its state says and every resource is
available or held. The changes of a negotiation keep it so, with or without
constraints.
-/

namespace OneTbb.Tcm

open List State Permit

/-- Permits in place and resources in balance. -/
structure Sound (P : Platform) (out : Set Handle) (st : State) : Prop where
  placed : Placed out st
  balanced : Balanced P 0 st

variable {P : Platform} {out : Set Handle} {st : State} {h : Handle}

/-! ## The changes of a negotiation -/

/-- The change of the requested permit itself. -/
def requestedChange (f : Fulfillment) (h : Handle) : PermitChange :=
  { handle := h
    newState := .active
    newConcurrencies := f.decisions.map FulfillmentDecision.toAssign
    inheritedConcurrencyIdx := f.toInheritIdx
    underflow := false }

/-- A competitor is in a container, so it was not taken out. -/
theorem State.IsCompetitor.placed {k : Handle} (hk : st.IsCompetitor h k) (hp : Placed out st) :
    k ∈ st.allocated ∧ k ∉ out ∧ ((st.rep k).state = .idle ∨ (st.rep k).state = .active) := by
  obtain hmem | hmem := hk.2
  · obtain ⟨hal, hout, hc⟩ := (hp.mem_iff .idle k).mp hmem
    exact ⟨hal, hout, .inl (idle_of_container hc)⟩
  · obtain ⟨hal, hout, hc⟩ := (hp.mem_iff .active k).mp hmem
    exact ⟨hal, hout, .inr (active_of_container hc)⟩

theorem PermitChange.TakesFrom.emptiesInactive {c : PermitChange}
    (hc : PermitChange.TakesFrom st h c) (hp : Placed out st) :
    c.EmptiesInactive (st.rep c.handle).concurrency.length := by
  obtain ⟨_, _, hstate⟩ := hc.competitor.placed hp
  obtain hs | ⟨hs, hzero⟩ := hc.state
  · rw [← hs] at hstate
    constructor
    · obtain h' | h' := hstate <;> rw [h'] <;> decide
    · intro hinactive
      rw [hinactive] at hstate
      obtain h' | h' := hstate <;> cases h'
  · constructor
    · rw [hs]
      decide
    · intro _
      refine ⟨fun hsingle => ?_, hzero⟩
      rw [hc.size, copiedConcurrency_of_single hsingle]

/-- The stakeholders' changes leave everything in place. -/
theorem Placed.applyStakeholders {initiator : Option Handle} {first : Bool}
    {cs : List PermitChange} (hp : Placed out st)
    (hcs : ∀ c ∈ cs, PermitChange.TakesFrom st h c)
    (hinit : initiator = none ∨ initiator = some h) :
    Placed out (cs.foldl (State.applyChange initiator first) (st, 0)).1 := by
  apply Placed.applyChanges hp
  intro c hc
  have htakes := hcs c hc
  obtain ⟨hal, hout, _⟩ := htakes.competitor.placed hp
  refine ⟨.inl ?_, hout, hal, htakes.emptiesInactive hp⟩
  obtain rfl | rfl := hinit
  · intro heq
    cases heq
  · intro heq
    exact htakes.competitor.1 (Option.some.inj heq).symm

theorem Sound.searched (hs : Sound P out st) (hal : h ∈ st.allocated) :
    Sound P out (st.setPermit h (st.trySatisfyRequest P h).2) := by
  obtain ⟨masks, constraints, max, hsome, hp⟩ := @trySatisfyRequest_permit P st h
  rw [hp]
  constructor
  case placed =>
    refine hs.placed.rewrite ?_ ?_ ?_
    · rfl
    · unfold container participatesInSubscriptionCompute isConstrained
      simp only [hsome]
    · exact Iff.rfl
  case balanced => exact hs.balanced.setPermit_same hal hs.placed.allocated_nodup rfl

/-- The stakeholders' changes and the requested one are changes of permits there are. -/
theorem negotiate_allocated {f : Fulfillment} (hp : Placed out st) (hal : h ∈ st.allocated)
    (hf : f.Names (st.Competes h)) :
    ∀ c ∈ st.negotiate P f h, c.handle ∈ st.allocated := by
  intro c hc
  obtain hc | hc := mem_append.mp hc
  · exact ((mergedChanges_takesFrom hf c hc).competitor.placed hp).1
  · rw [mem_singleton.mp hc]
    exact hal

theorem emptiesInactive_of_active {c : PermitChange} (hc : c.newState = .active) (size : Nat) :
    c.EmptiesInactive size := by
  constructor
  · rw [hc]
    decide
  · intro hinactive
    rw [hc] at hinactive
    cases hinactive

theorem Sound.negotiateWith {out' : Set Handle} {initiator : Option Handle} {first : Bool}
    (hs : Sound P out st) (hal : h ∈ st.allocated) {f : Fulfillment} (hf : f.Names (st.Competes h))
    (hinit : initiator = none ∨ initiator = some h)
    (hlast : ∀ acc : State × Int, Placed out acc.1 → h ∈ acc.1.allocated →
      Placed out' (State.applyChange initiator first acc (requestedChange f h)).1) :
    Sound P out' (st.apply (st.negotiate P f h) initiator first) := by
  constructor
  case placed =>
    unfold State.apply
    apply Placed.noteTcmStateChange
    apply Placed.addAvailable
    unfold State.negotiate
    rw [foldl_append, foldl_cons, foldl_nil]
    -- the stakeholders give up their parts before the permit itself changes
    refine hlast _ (hs.placed.applyStakeholders (mergedChanges_takesFrom hf) hinit) ?_
    rw [foldl_applyChange_allocated]
    exact hal
  case balanced =>
    exact hs.balanced.apply (negotiate_allocated hs.placed hal hf) hs.placed.allocated_nodup

theorem Sound.negotiate (hs : Sound P out st) (hal : h ∈ st.allocated) (hout : h ∉ out)
    {f : Fulfillment} (hf : f.Names (st.Competes h)) :
    Sound P out (st.apply (st.negotiate P f h) none true) :=
  hs.negotiateWith hal hf (.inl rfl) fun _ hp hmem =>
    hp.applyChange (.inr rfl) hout hmem (emptiesInactive_of_active rfl _)

/-- A negotiation for a permit that was taken out; its change puts it back. -/
theorem Sound.negotiate_initiator (hs : Sound P out st) (hal : h ∈ st.allocated) (hout : h ∈ out)
    {f : Fulfillment} (hf : f.Names (st.Competes h)) :
    Sound P (out \ {h}) (st.apply (st.negotiate P f h) (some h) false) :=
  hs.negotiateWith hal hf (.inr rfl) fun acc hp hmem =>
    @Placed.applyChange_initiator out acc (requestedChange f h) hp hout hmem
      (emptiesInactive_of_active rfl _)

/-! ## Renegotiation -/

theorem names_of_searched {f : Fulfillment} (p : Permit) (hf : f.Names (st.Competes h)) :
    f.Names ((st.setPermit h p).Competes h) := hf

theorem Sound.activatePending (hs : Sound P out st) (hal : h ∈ st.allocated) (hout : h ∉ out) :
    Sound P out (st.activatePending P h) := by
  have hsearched : Sound P out (st.setPermit h (st.trySatisfyRequest P h).2) := hs.searched hal
  unfold State.activatePending
  simp only
  split
  · exact hsearched.negotiate hal hout (names_of_searched _ trySatisfyRequest_names)
  · exact hsearched

theorem Sound.saturateActive (hs : Sound P out st) (hal : h ∈ st.allocated) (hout : h ∉ out) :
    Sound P out (st.saturateActive P h) := by
  have hsearched : Sound P out (st.setPermit h (st.trySatisfyRequest P h).2) := hs.searched hal
  exact hsearched.negotiate hal hout (names_of_searched _ trySatisfyRequest_names)

@[simp] theorem State.apply_allocated (cs : List PermitChange) (initiator : Option Handle)
    (first : Bool) : (st.apply cs initiator first).allocated = st.allocated :=
  foldl_applyChange_allocated cs (st, 0)

@[simp] theorem State.activatePending_allocated :
    (st.activatePending P h).allocated = st.allocated := by
  unfold State.activatePending
  simp only
  split
  · rw [apply_allocated, setPermit_allocated]
  · rw [setPermit_allocated]

@[simp] theorem State.saturateActive_allocated :
    (st.saturateActive P h).allocated = st.allocated := by
  unfold State.saturateActive
  simp only [apply_allocated, setPermit_allocated]

/-- A property that the attempts for single permits keep. `R` is what is known of the
permits in the containers of the states that have the property. -/
structure KeptByAttempts (P : Platform) (out : Set Handle) (Q : State → Prop)
    (R : Handle → Prop) : Prop where
  members : ∀ st c h, Sound P out st → Q st → h ∈ st.members c → R h
  activatePending : ∀ st h, Sound P out st → Q st → h ∈ st.allocated → h ∉ out → R h →
    Q (st.activatePending P h)
  saturateActive : ∀ st h, Sound P out st → Q st → h ∈ st.allocated → h ∉ out → R h →
    Q (st.saturateActive P h)

section Renegotiation

variable {Q : State → Prop} {R : Handle → Prop}

section

variable (hkept : KeptByAttempts P out Q R) (hs : Sound P out st) (hq : Q st)
include hkept hs hq

/-- The loop over the pending permits. -/
theorem KeptByAttempts.activatePendings {handles : List Handle}
    (hal : ∀ k ∈ handles, k ∈ st.allocated ∧ k ∉ out ∧ R k) :
    Sound P out (handles.foldl (State.activatePending P) st) ∧
      Q (handles.foldl (State.activatePending P) st) := by
  induction handles generalizing st with
  | nil => exact ⟨hs, hq⟩
  | cons k rest ih =>
    obtain ⟨hk, hout, hr⟩ := hal k mem_cons_self
    apply ih (hs.activatePending hk hout) (hkept.activatePending st k hs hq hk hout hr)
    intro k' hk'
    rw [activatePending_allocated]
    exact hal k' (mem_cons_of_mem k hk')

theorem KeptByAttempts.saturateActives {handles : List Handle}
    (hal : ∀ k ∈ handles, k ∈ st.allocated ∧ k ∉ out ∧ R k) :
    Sound P out (State.saturateActives P st handles) ∧
      Q (State.saturateActives P st handles) := by
  induction handles generalizing st with
  | nil => exact ⟨hs, hq⟩
  | cons k rest ih =>
    unfold State.saturateActives
    split
    · obtain ⟨hk, hout, hr⟩ := hal k mem_cons_self
      apply ih (hs.saturateActive hk hout) (hkept.saturateActive st k hs hq hk hout hr)
      intro k' hk'
      rw [saturateActive_allocated]
      exact hal k' (mem_cons_of_mem k hk')
    · exact ⟨hs, hq⟩

theorem KeptByAttempts.renegotiatePermits (initiator : Option Handle) :
    Sound P out (st.renegotiatePermits P initiator) ∧
      Q (st.renegotiatePermits P initiator) := by
  have hplaced : ∀ (st : State) (c : Container), Sound P out st → Q st →
      ∀ k ∈ st.members c, k ∈ st.allocated ∧ k ∉ out ∧ R k := by
    intro st c hs hq k hk
    obtain ⟨hal, hout, _⟩ := (hs.placed.mem_iff c k).mp hk
    exact ⟨hal, hout, hkept.members st c k hs hq hk⟩
  obtain ⟨hpending, hqpending⟩ := hkept.activatePendings hs hq (hplaced st .pending hs hq)
  unfold State.renegotiatePermits
  simp only
  split
  · apply hkept.saturateActives hpending hqpending
    intro k hk
    have hmem := mem_of_mem_filter ((P.priorityQueue.drain_perm _ _).mem_iff.mp hk)
    exact hplaced _ .active hpending hqpending k hmem
  · exact ⟨hpending, hqpending⟩

end

end Renegotiation

theorem Sound.renegotiatePermits (hs : Sound P out st) (initiator : Option Handle) :
    Sound P out (st.renegotiatePermits P initiator) := by
  have hkept : KeptByAttempts P out (fun _ => True) fun _ => True :=
    ⟨fun _ _ _ _ _ _ => trivial, fun _ _ _ _ _ _ _ => trivial, fun _ _ _ _ _ _ _ => trivial⟩
  exact (hkept.renegotiatePermits hs trivial initiator).1

end OneTbb.Tcm
