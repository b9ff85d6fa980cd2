import OneTbb.Tcm.Attempts

/-!
# Thread composability manager: the guaranteed minimum

A permit that runs, or keeps its resources after its deactivation, has what its request
asks for: at least the minimum and at most the maximum, the inherited resource counted in.
Only the search for resources looks at the minimum. Activation without a search relies on
what the permit has been given before.
-/

namespace OneTbb.Tcm

open State Function List Permit

variable {P : Platform} {out : Set Handle} {st st' : State} {h k : Handle}
  {initiator : Option Handle} {first : Bool}

/-- A request with explicit bounds. -/
structure PermitRequest.Explicit (req : PermitRequest) : Prop extends req.Ordered where
  max_pos : 0 < req.maxSwThreads

/-- A permit that runs, or has kept its resources. -/
def State.Keeps (st : State) (h : Handle) : Prop :=
  (st.rep h).state = .active ∨ (st.rep h).state = .idle ∨ st.lazyInactivePermit = some h

/-- The permits with resources are within the bounds of their requests. -/
structure Bounded (st : State) : Prop where
  explicit : ∀ k ∈ st.allocated, (st.rep k).request.Explicit
  within : ∀ k ∈ st.allocated, st.Keeps k → (st.rep k).Within

/-! ## What the primitives keep -/

theorem State.lazy_of_removePermit {s : PermitState}
    (hlazy : (st.removePermit h s).lazyInactivePermit = some k) :
    st.lazyInactivePermit = some k := by
  obtain hsame | ⟨_, hnone⟩ := removePermit_lazyInactivePermit st h s
  · rw [← hsame]
    exact hlazy
  · rw [hnone] at hlazy
    cases hlazy

namespace Bounded

section

variable (hb : Bounded st)
include hb

/-- Fewer permits are within their bounds just as well. -/
theorem subset (hrep : st'.rep = st.rep) (hal : ∀ k ∈ st'.allocated, k ∈ st.allocated)
    (hlazy : ∀ k, st'.lazyInactivePermit = some k → st.lazyInactivePermit = some k) :
    Bounded st' where
  explicit := by
    rw [hrep]
    exact fun k hk => hb.explicit k (hal k hk)
  within := by
    intro k hk hkeeps
    unfold State.Keeps at hkeeps
    rw [hrep] at hkeeps ⊢
    exact hb.within k (hal k hk) (hkeeps.imp id (Or.imp id (hlazy k)))

theorem congr (hrep : st'.rep = st.rep) (hal : st'.allocated = st.allocated)
    (hlazy : ∀ k, st'.lazyInactivePermit = some k → st.lazyInactivePermit = some k) :
    Bounded st' := hb.subset hrep (fun _ hk => hal ▸ hk) hlazy

theorem setPermit {p : Permit} (hp : p.request.Explicit)
    (hw : p.state = .active ∨ p.state = .idle ∨ st.lazyInactivePermit = some h → p.Within) :
    Bounded (st.setPermit h p) where
  explicit := by
    intro k hk
    by_cases hkh : k = h
    · rw [hkh, setPermit_rep_self]
      exact hp
    · rw [setPermit_rep_of_ne st h hkh]
      exact hb.explicit k hk
  within := by
    intro k hk hkeeps
    unfold State.Keeps at hkeeps
    by_cases hkh : k = h
    · rw [hkh, setPermit_rep_self] at hkeeps ⊢
      exact hw hkeeps
    · rw [setPermit_rep_of_ne st h hkh] at hkeeps ⊢
      exact hb.within k hk hkeeps

theorem removePermit (s : PermitState) : Bounded (st.removePermit h s) := by
  apply hb.congr (removePermit_rep ..) (removePermit_allocated ..)
  exact fun k hlazy => lazy_of_removePermit hlazy

theorem addPermit (s : PermitState) : Bounded (st.addPermit h s) := by
  apply hb.congr (addPermit_rep ..) (addPermit_allocated ..)
  intro k hlazy
  rw [addPermit_lazyInactivePermit] at hlazy
  exact hlazy

theorem snapshot (hal : h ∈ st.allocated) (epoch : Nat) :
    Bounded (st.setPermit h { st.rep h with tcmEpochSnapshot := epoch }) := by
  refine hb.setPermit (hb.explicit h hal :) ?_
  intro hkeeps
  exact ⟨(hb.within h hal hkeeps).min_le, (hb.within h hal hkeeps).le_max⟩

theorem forgetLazy : Bounded { st with lazyInactivePermit := none } :=
  hb.congr rfl rfl fun _ hnone => by cases hnone

end

theorem grabLazyInactive (hb : Bounded { st with lazyInactivePermit := none })
    (hp : Placed out st) : Bounded st.grabLazyInactive := by
  unfold State.grabLazyInactive
  cases hlazy : st.lazyInactivePermit with
  | none => exact hb.congr rfl rfl fun k hk => by rw [hlazy] at hk; cases hk
  | some l =>
    obtain ⟨hal, _, hinactive⟩ := hp.lazy_inactive l hlazy
    have hset := hb.setPermit (h := l)
      (p := { st.rep l with concurrency := (st.rep l).concurrency.map fun _ => 0 })
      (hb.explicit l hal) (by
        intro hkeeps
        simp only [hinactive] at hkeeps
        obtain hs | hs | hs := hkeeps <;> cases hs)
    exact hset.congr rfl rfl fun _ hk => hk

end Bounded

/-! ## Attempts -/

theorem applyChange_lazy {acc : State × Int} {c : PermitChange}
    (hlazy : (State.applyChange initiator first acc c).1.lazyInactivePermit = some k) :
    acc.1.lazyInactivePermit = some k := by
  simp only [State.applyChange, addPermit_lazyInactivePermit,
    setPermit_lazyInactivePermit] at hlazy
  split at hlazy
  · exact lazy_of_removePermit hlazy
  · exact hlazy

theorem foldl_applyChange_lazy {cs : List PermitChange} {acc : State × Int}
    (hlazy : (cs.foldl (State.applyChange initiator first) acc).1.lazyInactivePermit = some k) :
    acc.1.lazyInactivePermit = some k := by
  induction cs generalizing acc with
  | nil => exact hlazy
  | cons c rest ih => exact applyChange_lazy (ih hlazy)

theorem State.lazy_of_apply {cs : List PermitChange}
    (hlazy : (st.apply cs initiator first).lazyInactivePermit = some k) :
    st.lazyInactivePermit = some k := @foldl_applyChange_lazy k initiator first cs (st, 0) hlazy

theorem Bounded.attempted (hb : Bounded st) (hs : Settled P out st) (hal : h ∈ st.allocated)
    (hpend : (st.plainFulfillment h).pendingConstraintsIndices = [])
    (hsat : (st.rep h).adjustedMinSwThreads.toNat ≤ (st.plainFulfillment h).numSatisfiable) :
    Bounded (st.attempted P h initiator first) := by
  obtain ⟨hself, hothers⟩ := @attempted_rep P out st h initiator first hs hal
  have hexplicit := hb.explicit h hal
  constructor
  case explicit =>
    intro k hk
    rw [attempted_allocated] at hk
    by_cases hkh : k = h
    · rw [hkh, hself]
      exact hexplicit
    · rw [(hothers k hkh).request_eq]
      exact hb.explicit k hk
  case within =>
    intro k hk hkeeps
    rw [attempted_allocated] at hk
    by_cases hkh : k = h
    · rw [hkh]
      exact attempted_within hs hal hexplicit.toOrdered
        (fun hmax => absurd hexplicit.max_pos (not_lt.mpr hmax)) hpend hsat
    · have hyields := hothers k hkh
      by_cases hinactive : ((st.attempted P h initiator first).rep k).state = .inactive
      · -- only the lazily deactivated permit keeps its resources so, and it is left alone
        have hlazy : st.lazyInactivePermit = some k := by
          obtain hs' | hs' | hlazy := hkeeps
          · rw [hinactive] at hs'
            cases hs'
          · rw [hinactive] at hs'
            cases hs'
          · exact lazy_of_apply hlazy
        have hstate := (hs.placed.lazy_inactive k hlazy).2.2
        rw [hyields.eq_of_not_running (by rw [hstate]; decide) (by rw [hstate]; decide)]
        exact hb.within k hk (.inr (.inr hlazy))
      · have hbefore : st.Keeps k := by
          obtain hs' | hs' | hlazy := hkeeps
          · exact .inl (hyields.state_eq hinactive ▸ hs')
          · exact .inr (.inl (hyields.state_eq hinactive ▸ hs'))
          · exact .inr (.inr (lazy_of_apply hlazy))
        exact hyields.within (hs.plain k hk) (hb.explicit k hk).toOrdered
          (hb.within k hk hbefore) hinactive

theorem Bounded.adjustExistingPermit_apply (hb : Bounded st.grabLazyInactive)
    (hs : Settled P out st.grabLazyInactive) (hal : h ∈ st.allocated)
    (hfound : (st.adjustExistingPermit P h).2.isEmpty = false) :
    Bounded ((st.adjustExistingPermit P h).1.apply (st.adjustExistingPermit P h).2
      (some h) false) := by
  have hal' := mem_grabLazyInactive hal
  rw [adjustExistingPermit_plain (hs.plain h hal')] at hfound ⊢
  split at hfound
  · cases hfound
  · rename_i haccepted
    rw [if_neg haccepted]
    rw [not_or, not_not] at haccepted
    have hsigned : Word.signed (st.grabLazyInactive.plainFulfillment h).numSatisfiable ≤
        (st.grabLazyInactive.plainFulfillment h).numSatisfiable := Word.signed_le _
    exact hb.attempted hs hal' haccepted.2 (by omega)

/-! ## Requests -/

variable {top : Option Handle} {req : PermitRequest}

theorem PermitRequest.Explicit.deduced {req : PermitRequest} (hreq : req.Explicit) (sumMin : Int) :
    (deduceRequestArguments P req sumMin).Explicit := by
  have hmin := hreq.min_nonneg
  have hmax := hreq.max_pos
  have hminEq : (deduceRequestArguments P req sumMin).minSwThreads = req.minSwThreads :=
    if_neg (by unfold automatic; omega)
  have hmaxEq : (deduceRequestArguments P req sumMin).maxSwThreads = req.maxSwThreads :=
    if_neg (by unfold automatic; omega)
  refine ⟨⟨?_, ?_⟩, ?_⟩
  · rw [hminEq]
    exact hmin
  · rw [hminEq, hmaxEq]
    exact hreq.min_le_max
  · rw [hmaxEq]
    exact hmax

theorem Bounded.requestResources (hb : Bounded st) (hs : Settled P {h} st)
    (hal : h ∈ st.allocated) (hstate : (st.rep h).state = .pending) (top : Option Handle)
    (available : Nat) : Bounded (st.requestResources P h top 0 available).state := by
  obtain ⟨p, st', hp, heq, hcases⟩ := st.requestResources_cases P h top 0 available
  have hwritten : Bounded (st.setPermit h p) := by
    apply hb.setPermit
    · rw [hp.request]
      exact (hb.explicit h hal).deduced 0
    · intro hkeeps
      rw [hp.state, hstate] at hkeeps
      obtain hs' | hs' | hlazy := hkeeps
      · cases hs'
      · cases hs'
      · exact absurd hlazy (hs.placed.lazy_ne_of_out (Set.mem_singleton h))
  have hsettled := hs.written hal hp
  have hgrabbed := hwritten.forgetLazy.grabLazyInactive hsettled.placed
  have hal' : h ∈ (st.setPermit h p).grabLazyInactive.allocated :=
    mem_grabLazyInactive hal
  rw [heq]
  obtain rfl | ⟨hfound, rfl⟩ := hcases
  · have hadjusted : Bounded ((st.setPermit h p).adjustExistingPermit P h).1 := by
      rw [adjustExistingPermit_plain (hsettled.grabLazyInactive.plain h hal')]
      exact hgrabbed
    apply (hadjusted.addPermit _).snapshot
    rw [addPermit_allocated, adjustExistingPermit_allocated]
    exact hal
  · apply (hgrabbed.adjustExistingPermit_apply hsettled.grabLazyInactive hal hfound).snapshot
    rw [apply_allocated, adjustExistingPermit_allocated]
    exact hal

theorem Bounded.allocate (hb : Bounded st) (hp : Placed out st) (hnew : h ∉ st.allocated)
    {p : Permit} (hexplicit : p.request.Explicit)
    (hstate : p.state = .pending ∨ p.state = .inactive) :
    Bounded { st.setPermit h p with allocated := h :: st.allocated } := by
  have hne (k : Handle) (hk : k ∈ st.allocated) : k ≠ h := by
    rintro rfl
    exact hnew hk
  constructor
  case explicit =>
    intro k hk
    change (update st.rep h p k).request.Explicit
    obtain rfl | hk := mem_cons.mp hk
    · rw [update_self]
      exact hexplicit
    · rw [update_of_ne (hne k hk)]
      exact hb.explicit k hk
  case within =>
    intro k hk hkeeps
    change (update st.rep h p k).state = .active ∨
      (update st.rep h p k).state = .idle ∨ st.lazyInactivePermit = some k at hkeeps
    change (update st.rep h p k).Within
    obtain rfl | hk := mem_cons.mp hk
    · rw [update_self] at hkeeps
      obtain hs | hs | hlazy := hkeeps
      · obtain hs' | hs' := hstate <;> rw [hs] at hs' <;> cases hs'
      · obtain hs' | hs' := hstate <;> rw [hs] at hs' <;> cases hs'
      · exact absurd (hp.lazy_inactive k hlazy).1 hnew
    · rw [update_of_ne (hne k hk)] at hkeeps ⊢
      exact hb.within k hk hkeeps

theorem Bounded.requestNewPermit (hb : Bounded st) (hs : Settled P ∅ st) {client : ClientId}
    {handle : Option Handle}
    (hnew : ∀ h, handle = some h → h ∉ st.allocated) (hreq : req.cpuConstraints = none)
    (hword : req.IsWord) (hexplicit : req.Explicit) (top : Option Handle) :
    Bounded (st.requestNewPermit P client req handle top).state := by
  unfold State.requestNewPermit
  split
  · exact hb
  · exact hb
  · rename_i sumMin h haccept
    obtain rfl := acceptRequest_unconstrained hreq haccept
    have hstate : (makeNewPermit client req).state = .pending ∨
        (makeNewPermit client req).state = .inactive := by
      unfold makeNewPermit
      simp only
      split
      · exact .inr rfl
      · exact .inl rfl
    have hmade := hb.allocate hs.placed (hnew h rfl) (p := makeNewPermit client req) hexplicit hstate
    split
    · exact hmade
    · rename_i hinactive
      apply Bounded.requestResources
      · exact hmade.congr rfl rfl fun _ hlazy => hlazy
      · exact hs.allocateListed (hnew h rfl) hreq hword
      · exact mem_cons_self
      · change (update st.rep h (makeNewPermit client req) h).state = .pending
        rw [update_self]
        exact if_neg hinactive

theorem Bounded.requestExistingPermit (hb : Bounded st) (hs : Settled P ∅ st)
    (hal : h ∈ st.allocated) (hreq : req.cpuConstraints = none)
    (hword : req.IsWord) (hexplicit : req.Explicit)
    (hlazy : req.flags.requestAsInactive = true → st.lazyInactivePermit ≠ some h)
    (top : Option Handle) : Bounded (st.requestExistingPermit P h req top).state := by
  have hcopied (copyMasks : Bool) : (copyRequest (st.rep h).request req copyMasks).Explicit :=
    ⟨⟨hexplicit.min_nonneg, hexplicit.min_le_max⟩, hexplicit.max_pos⟩
  unfold State.requestExistingPermit
  simp only
  split
  · exact hb
  · rename_i sumMin haccept
    obtain rfl := acceptRequest_unconstrained hreq haccept
    split
    · rename_i hasInactive
      split
      · exact hb
      · rename_i hstate
        rw [not_or, not_not] at hstate
        refine hb.setPermit (hcopied true :) ?_
        intro hkeeps
        rw [hstate.1] at hkeeps
        obtain hs' | hs' | hs' := hkeeps
        · cases hs'
        · cases hs'
        · exact absurd hs' (hlazy hasInactive)
    · apply Bounded.requestResources
      · have hremoved := hb.removePermit (h := h) (st.rep h).state
        have hset := hremoved.setPermit (h := h)
          (p := { st.rep h with request := copyRequest (st.rep h).request req false }.released
            .pending) (hcopied false) (by
            intro hkeeps
            obtain hs' | hs' | hs' := hkeeps
            · cases hs'
            · cases hs'
            · exact absurd hs' (hs.sound.takeOut.placed.lazy_ne_of_out (Set.mem_singleton h)))
        exact hset.congr rfl rfl fun _ hk => hk
      · exact hs.movedToPending hal hword
      · exact mem_takeOut hal
      · change (update (st.removePermit h (st.rep h).state).rep h _ h).state = .pending
        rw [update_self]
        rfl

/-! ## Activation and deactivation -/

theorem Bounded.idlePermit (hb : Bounded st) (hal : h ∈ st.allocated) :
    Bounded (st.idlePermit h).state := by
  unfold State.idlePermit
  simp only
  split
  · exact hb
  · rename_i hactive
    have hw := hb.within h hal (.inl (not_not.mp hactive))
    have hwritten : Bounded (st.setPermit h { st.rep h with state := .idle }) :=
      hb.setPermit (hb.explicit h hal :) fun _ => ⟨hw.min_le, hw.le_max⟩
    exact (hwritten.removePermit (h := h) .active).addPermit (h := h) .idle

/-- The condition on an activation that does not search: the permit has kept its resources
and is nested as before, or it has none and the inherited one is enough. -/
def State.ActivatesWithin (st : State) (h : Handle) (top : Option Handle) : Prop :=
  st.Keeps h ∧ ((st.rep h).determineNestedPermit h top).isNested = (st.rep h).isNested ∨
    (st.rep h).grant = 0 ∧
      (st.rep h).request.minSwThreads ≤ ((st.rep h).determineNestedPermit h top).inherited

theorem Bounded.activatesWithin (hb : Bounded st) (hs : Settled P out st) (hal : h ∈ st.allocated)
    (hguard : st.ActivatesWithin h top) :
    ((st.rep h).determineNestedPermit h top).Within := by
  obtain ⟨nested, hnested⟩ := determineNestedPermit_eq (h := h) (st.rep h) top
  unfold State.ActivatesWithin at hguard
  rw [hnested] at hguard ⊢
  obtain ⟨hkeeps, hsame⟩ | ⟨hgrant, hmin⟩ := hguard
  · have hw := hb.within h hal hkeeps
    change nested = (st.rep h).isNested at hsame
    subst hsame
    exact ⟨hw.min_le, hw.le_max⟩
  · rw [hs.grant_eq hal] at hgrant
    change (st.rep h).request.minSwThreads ≤ (nested.toNat : Int) at hmin
    constructor
    · change max 0 ((st.rep h).request.minSwThreads - (nested.toNat : Int)) ≤
        (((st.rep h).concurrency.sum : Nat) : Int)
      omega
    · change (((st.rep h).concurrency.sum : Nat) : Int) ≤
        max 0 ((st.rep h).request.maxSwThreads - (nested.toNat : Int))
      omega

theorem Bounded.activateUnchanged (hb : Bounded st) (hs : Settled P out st)
    (hal : h ∈ st.allocated) (hguard : st.ActivatesWithin h top) :
    Bounded (st.activateUnchanged h top) := by
  have hw := hb.activatesWithin hs hal hguard
  unfold State.activateUnchanged
  apply Bounded.addPermit
  obtain ⟨nested, hnested⟩ := determineNestedPermit_eq (h := h) (st.rep h) top
  have hactive : ({ st.rep h with state := .active } : Permit).determineNestedPermit h top =
      { (st.rep h).determineNestedPermit h top with state := .active } := by
    cases top with
    | none => rfl
    | some t =>
      unfold determineNestedPermit
      simp only
      split <;> rfl
  rw [hactive]
  refine (hb.removePermit _).setPermit ?_ fun _ => ⟨hw.min_le, hw.le_max⟩
  rw [hnested]
  exact hb.explicit h hal

/-- More resources are taken up to the maximum only. -/
theorem activateTopUp_within (hp : (st.rep h).Plain) (hexplicit : (st.rep h).request.Explicit)
    (hw : (st.rep h).Within) : ((st.activateTopUp h).rep h).Within ∧
      ((st.activateTopUp h).rep h).request = (st.rep h).request := by
  unfold State.activateTopUp
  simp only
  split
  · rename_i hcond
    have hmax := hexplicit.max_pos
    have hlt := hp.word.max_lt
    have hinherited : (st.rep h).inherited ≤ 1 := Bool.toNat_le _
    have hle := hw.le_max
    have hadjusted : (st.rep h).adjustedMaxSwThreads =
        max 0 ((st.rep h).request.maxSwThreads - (st.rep h).inherited) := rfl
    have hword : (Word.ofInt (st.rep h).request.maxSwThreads : Int) =
        (st.rep h).request.maxSwThreads := Word.ofInt_of_lt (by omega) (by omega)
    have hdesired := @Word.sub_of_le (Word.ofInt (st.rep h).request.maxSwThreads)
      (st.rep h).inherited (by omega) (Word.ofInt_lt _)
    have hgrant : (st.rep h).grant = (st.rep h).concurrency.sum := Word.sum_of_lt (by omega)
    rw [hdesired, hgrant] at hcond ⊢
    generalize hchange : min st.availableConcurrency (Word.ofInt (st.rep h).request.maxSwThreads -
      (st.rep h).inherited - (st.rep h).concurrency.sum) = change
    have hmore : (st.rep h).concurrency.modify 0 (Word.add · change) =
        [(st.rep h).concurrency.sum + change] := by
      rw [hp.concurrency_eq]
      simp only [modify_zero_cons, sum_singleton]
      rw [Word.add_of_lt (by omega)]
    rw [hmore]
    have hrep : (((st.addAvailable (-(change : Int))).setPermit h { st.rep h with
        concurrency := [(st.rep h).concurrency.sum + change] }).noteTcmStateChange.rep h) =
        { st.rep h with concurrency := [(st.rep h).concurrency.sum + change] } :=
      update_self ..
    rw [hrep]
    refine ⟨⟨?_, ?_⟩, rfl⟩
    · change (st.rep h).adjustedMinSwThreads ≤
        (([(st.rep h).concurrency.sum + change].sum : Nat) : Int)
      have := hw.min_le
      rw [sum_singleton]
      omega
    · change (([(st.rep h).concurrency.sum + change].sum : Nat) : Int) ≤
        (st.rep h).adjustedMaxSwThreads
      rw [sum_singleton]
      omega
  · exact ⟨hw, rfl⟩

theorem State.activateTopUp_lazyInactivePermit :
    (st.activateTopUp h).lazyInactivePermit = st.lazyInactivePermit := by
  unfold State.activateTopUp
  simp only
  split <;> rfl

theorem State.activateTopUp_rep_of_ne (hk : k ≠ h) : (st.activateTopUp h).rep k = st.rep k := by
  unfold State.activateTopUp
  simp only
  split
  · exact update_of_ne hk ..
  · rfl

section

variable (hb : Bounded st)
include hb

section

variable (hs : Settled P ∅ st) (hal : h ∈ st.allocated)
include hs hal

theorem Bounded.activateGranted (hguard : st.ActivatesWithin h top) :
    Bounded (st.activateGranted h top) := by
  have hw := hb.activatesWithin hs hal hguard
  obtain ⟨nested, hnested⟩ := determineNestedPermit_eq (h := h) (st.rep h) top
  have hexplicit : ((st.rep h).determineNestedPermit h top).request.Explicit := by
    rw [hnested]
    exact hb.explicit h hal
  have hremoved := hb.removePermit (h := h) (st.rep h).state
  unfold State.activateGranted
  apply Bounded.addPermit
  generalize hset : (st.removePermit h (st.rep h).state).setPermit h
    ((st.rep h).determineNestedPermit h top) = written
  have hrep : written.rep h = (st.rep h).determineNestedPermit h top := by
    rw [← hset, setPermit_rep_self]
  have hwritten : Bounded written := by
    rw [← hset]
    exact hremoved.setPermit hexplicit fun _ => hw
  have hplain : (written.rep h).Plain := by
    rw [hrep]
    exact (hs.plain h hal).determineNestedPermit top
  have hal' : written.allocated = st.allocated := by
    rw [← hset, setPermit_allocated, removePermit_allocated]
  obtain ⟨htopped, hrequest⟩ := activateTopUp_within (h := h) hplain (hrep ▸ hexplicit) (hrep ▸ hw)
  constructor
  case explicit =>
    intro k hk
    change k ∈ (written.activateTopUp h).allocated at hk
    rw [activateTopUp_allocated] at hk
    by_cases hkh : k = h
    · rw [hkh, setPermit_rep_self]
      change ((written.activateTopUp h).rep h).request.Explicit
      rw [hrequest, hrep]
      exact hexplicit
    · rw [setPermit_rep_of_ne _ _ hkh, activateTopUp_rep_of_ne hkh]
      exact hwritten.explicit k hk
  case within =>
    intro k hk hkeeps
    change k ∈ (written.activateTopUp h).allocated at hk
    rw [activateTopUp_allocated] at hk
    by_cases hkh : k = h
    · rw [hkh, setPermit_rep_self]
      exact ⟨htopped.min_le, htopped.le_max⟩
    · unfold State.Keeps at hkeeps
      rw [setPermit_rep_of_ne _ _ hkh, activateTopUp_rep_of_ne hkh,
        setPermit_lazyInactivePermit, activateTopUp_lazyInactivePermit] at hkeeps
      rw [setPermit_rep_of_ne _ _ hkh, activateTopUp_rep_of_ne hkh]
      exact hwritten.within k hk hkeeps

theorem Bounded.activateSearching (hstate : (st.rep h).state = .inactive) (top : Option Handle) :
    Bounded (st.activateSearching P h top) := by
  obtain ⟨p, hp, hcases⟩ := st.activateSearching_cases P h top
  have hsettled := hs.activationWritten hal hstate hp
  have hforgot : Bounded { st.setPermit h p with lazyInactivePermit := none } := by
    apply hb.forgetLazy.setPermit
    · rw [hp.request]
      exact hb.explicit h hal
    · intro hkeeps
      rw [hp.state, hstate] at hkeeps
      obtain hs' | hs' | hs' := hkeeps <;> cases hs'
  have hgrabbed := hforgot.grabLazyInactive hsettled.placed
  have hal' : h ∈ (st.setPermit h p).grabLazyInactive.allocated :=
    mem_grabLazyInactive hal
  obtain heq | ⟨hfound, heq⟩ := hcases
  · rw [heq]
    apply Bounded.addPermit
    rw [adjustExistingPermit_plain (hsettled.grabLazyInactive.plain h hal')]
    refine hgrabbed.setPermit (hgrabbed.explicit h hal' :) ?_
    intro hkeeps
    obtain hs' | hs' | hlazy := hkeeps
    · cases hs'
    · cases hs'
    · rw [grabLazyInactive_lazy] at hlazy
      cases hlazy
  · rw [heq]
    exact hgrabbed.adjustExistingPermit_apply hsettled.grabLazyInactive hal hfound

theorem Bounded.activatePermit (hplace : st.ActivatesInPlace (.activate h top))
    (hguard : (st.rep h).state = .inactive ∨ (st.rep h).state = .idle →
      st.isUnchangedFor (st.rep h) = true ∨ (st.rep h).grant ≠ 0 → st.ActivatesWithin h top) :
    Bounded (st.activatePermit P h top).state := by
  unfold State.activatePermit
  simp only
  split
  · exact hb
  · rename_i hactive
    split
    · exact hb
    · rename_i hpending
      have hrests : (st.rep h).state = .inactive ∨ (st.rep h).state = .idle := by
        cases hstate : (st.rep h).state with
        | inactive => exact .inl rfl
        | idle => exact .inr rfl
        | pending => exact absurd hstate hpending
        | active => exact absurd hstate hactive
      split
      · rename_i hunchanged
        exact hb.activateUnchanged hs hal (hguard hrests (.inl hunchanged))
      · rename_i hchanged
        split
        · rename_i hgrant
          apply (hb.activateGranted hs hal (hguard hrests (.inr hgrant))).snapshot
          rw [activateGranted_allocated]
          exact hal
        · rename_i hgrant
          apply (hb.activateSearching hs hal (inactive_of_searching hactive hpending hchanged
            (not_not.mp hgrant) hplace) top).snapshot
          rw [activateSearching_allocated]
          exact hal

theorem Bounded.deactivatePermit :
    Bounded (st.deactivatePermit h).state := by
  have hremoved := hb.removePermit (h := h) (st.rep h).state
  have hnotLazy := hs.sound.takeOut.placed.lazy_ne_of_out (Set.mem_singleton h)
  have hrests {p : Permit} (hexplicit : p.request.Explicit) (hinactive : p.state = .inactive) :
      Bounded ((st.removePermit h (st.rep h).state).setPermit h p) := by
    apply hremoved.setPermit hexplicit
    intro hkeeps
    rw [hinactive] at hkeeps
    obtain hs' | hs' | hs' := hkeeps
    · cases hs'
    · cases hs'
    · exact absurd hs' hnotLazy
  unfold State.deactivatePermit
  simp only
  split
  · exact hb
  · exact hrests (hb.explicit h hal) rfl
  · rename_i hinactive hpending
    have hkeeps : st.Keeps h := by
      cases hstate : (st.rep h).state with
      | inactive => exact absurd hstate hinactive
      | pending => exact absurd hstate hpending
      | active => exact .inl hstate
      | idle => exact .inr (.inl hstate)
    have hw := hb.within h hal hkeeps
    split
    · exact (hrests (p := (st.rep h).released .inactive) (hb.explicit h hal) rfl).congr rfl rfl
        fun _ hk => hk
    · -- the permit keeps its resources
      have hset := hrests (p := { st.rep h with state := .inactive }) (hb.explicit h hal) rfl
      constructor
      case explicit => exact hset.explicit
      case within =>
        intro k hk hkeeps
        by_cases hkh : k = h
        · subst hkh
          change (update (st.removePermit k (st.rep k).state).rep k _ k).Within
          rw [update_self]
          exact ⟨hw.min_le, hw.le_max⟩
        · apply hset.within k hk
          obtain hs' | hs' | hlazy := hkeeps
          · exact .inl hs'
          · exact .inr (.inl hs')
          · exact absurd (Option.some.inj hlazy).symm hkh

end

/-! ## Permits that leave -/

theorem Bounded.releasePermit : Bounded (st.releasePermit h).state := by
  unfold State.releasePermit
  simp only [removePermit_clientToPermit]
  apply (hb.removePermit (h := h) (st.rep h).state).subset
  · rfl
  · exact fun k hk => mem_of_mem_erase hk
  · exact fun _ hk => hk

theorem Bounded.clearUpPermits (handles : List Handle) :
    Bounded (handles.foldl State.clearUpPermit st) := by
  induction handles generalizing st with
  | nil => exact hb
  | cons k rest ih => exact ih (hb.removePermit _)

theorem Bounded.unregisterClient (client : ClientId) :
    Bounded (st.unregisterClient client).state := by
  unfold State.unregisterClient
  apply (hb.clearUpPermits (st.clientPermits client)).subset
  · rfl
  · exact fun k hk => mem_of_mem_filter hk
  · exact fun _ hk => hk

/-! ## Renegotiation -/

theorem Bounded.activatePending (hs : Settled P out st)
    (hal : h ∈ st.allocated) : Bounded (st.activatePending P h) := by
  rw [activatePending_plain (hs.plain h hal)]
  split
  · rename_i haccepted
    have hord := (hb.explicit h hal).toOrdered
    have hbounds := searchBounds (hs.plain h hal).word hord
    have hlo := hbounds.lo_eq
    have hlt := hbounds.lo_le_hi.trans_lt hbounds.hi_lt
    have hword := @Word.ofInt_of_lt (st.rep h).adjustedMinSwThreads (by omega) (by omega)
    exact hb.attempted hs hal haccepted.2 (by omega)
  · exact hb

theorem Bounded.activatePendings {handles : List Handle} (hs : Settled P out st)
    (hal : ∀ k ∈ handles, k ∈ st.allocated ∧ k ∉ out) :
    Bounded (handles.foldl (State.activatePending P) st) ∧
      Settled P out (handles.foldl (State.activatePending P) st) := by
  induction handles generalizing st with
  | nil => exact ⟨hb, hs⟩
  | cons k rest ih =>
    obtain ⟨hk, hout⟩ := hal k mem_cons_self
    apply ih (hb.activatePending hs hk) (hs.activatePending hk hout)
    intro k' hk'
    rw [activatePending_allocated]
    exact hal k' (mem_cons_of_mem k hk')

/-- Active permits stay active while others get more. -/
theorem Bounded.saturateActive (hs : Settled P out st) (hal : h ∈ st.allocated)
    (hactive : (st.rep h).state = .active) :
    Bounded (st.saturateActive P h) ∧ ∀ k, (st.rep k).state = .active →
      ((st.saturateActive P h).rep k).state = .active := by
  have hord := (hb.explicit h hal).toOrdered
  have hw := hb.within h hal (.inl hactive)
  obtain ⟨hpend, hsat⟩ := accepted_of_within hs hal hord hw
  rw [saturateActive_plain (hs.plain h hal)]
  refine ⟨hb.attempted hs hal hpend hsat, ?_⟩
  intro k hk
  change ((st.attempted P h none true).rep k).state = .active
  by_cases hkh : k = h
  · rw [hkh, (attempted_rep hs hal).1]
    rfl
  · rw [attempted_rep_active_of_within hs hal hord hw hkh hk]
    exact hk

theorem Bounded.saturateActives {handles : List Handle} (hs : Settled P out st)
    (hal : ∀ k ∈ handles, k ∈ st.allocated ∧ k ∉ out ∧ (st.rep k).state = .active) :
    Bounded (State.saturateActives P st handles) := by
  induction handles generalizing st with
  | nil => exact hb
  | cons k rest ih =>
    unfold State.saturateActives
    split
    · obtain ⟨hk, hout, hactive⟩ := hal k mem_cons_self
      obtain ⟨hb', hactive'⟩ := hb.saturateActive hs hk hactive
      apply ih hb' (hs.saturateActive hk hout)
      intro k' hk'
      obtain ⟨hal', hout', hstate'⟩ := hal k' (mem_cons_of_mem k hk')
      rw [saturateActive_allocated]
      exact ⟨hal', hout', hactive' k' hstate'⟩
    · exact hb

theorem Bounded.renegotiatePermits (hs : Settled P out st)
    (initiator : Option Handle) : Bounded (st.renegotiatePermits P initiator) := by
  obtain ⟨hpending, hsettled⟩ := @Bounded.activatePendings P out st hb st.pendingPermits hs (by
    intro k hk
    obtain ⟨hal, hout, _⟩ := (hs.placed.mem_iff .pending k).mp hk
    exact ⟨hal, hout⟩)
  unfold State.renegotiatePermits
  simp only
  split
  · apply hpending.saturateActives hsettled
    intro k hk
    have hmem := mem_of_mem_filter ((P.priorityQueue.drain_perm _ _).mem_iff.mp hk)
    obtain ⟨hal, hout, hcontainer⟩ := (hsettled.placed.mem_iff .active k).mp hmem
    exact ⟨hal, hout, active_of_container hcontainer⟩
  · exact hpending

end

/-! ## Runs -/

/-- The requests of a call have explicit bounds; the request of a permit that has kept its
resources is not replaced; and an activation without a search finds the permit within its
bounds. -/
def State.KeepsMinimum (st : State) : Call → Prop
  | .requestNew _ req _ _ => req.Explicit
  | .request h req _ =>
    req.Explicit ∧ (req.flags.requestAsInactive = true → st.lazyInactivePermit ≠ some h)
  | .activate h top =>
    (st.rep h).state = .inactive ∨ (st.rep h).state = .idle →
      st.isUnchangedFor (st.rep h) = true ∨ (st.rep h).grant ≠ 0 → st.ActivatesWithin h top
  | _ => True

theorem Bounded.perform (hb : Bounded st) (hs : Settled P ∅ st) {c : Call} (hallows : st.Allows c)
    (hplain : c.Unconstrained) (hplace : st.ActivatesInPlace c) (hguard : st.KeepsMinimum c) :
    Bounded (st.perform P c).state := by
  cases c with
  | connect => exact hb.congr rfl rfl fun _ hk => hk
  | requestNew client req handle top =>
    exact hb.requestNewPermit hs hallows.2.2 hplain hallows.2.1 hguard top
  | request h req top =>
    exact hb.requestExistingPermit hs hallows.1.1 hplain hallows.2.1 hguard.1 hguard.2 top
  | idle h => exact hb.idlePermit hallows.1
  | activate h top => exact hb.activatePermit hs hallows.1 hplace hguard
  | deactivate h => exact hb.deactivatePermit hs hallows.1
  | release h => exact hb.releasePermit
  | disconnect client => exact hb.unregisterClient client

/-- The condition on the calls of a run under which minima are guaranteed. -/
def State.Guarantees (st : State) (c : Call) : Prop :=
  c.Unconstrained ∧ st.ActivatesInPlace c ∧ st.KeepsMinimum c

/-- In the runs that meet the condition all permits with resources are within bounds. -/
theorem Reaches.bounded (hreach : Reaches P State.Guarantees st) : Bounded st := by
  obtain ⟨owed, run⟩ := hreach
  have hsettled : ∀ s : System, Relation.ReflTransGen (Step P State.Guarantees) (initial P) s →
      Settled P ∅ s.state := by
    intro s hs
    have hreach : Reaches P State.Guarantees s.state := ⟨s.owed, hs⟩
    exact hreach.settled fun _ _ hc => ⟨hc.1, hc.2.1⟩
  have hstep : ∀ s t : System, Settled P ∅ s.state → Bounded s.state →
      Step P State.Guarantees s t → Bounded t.state := by
    intro s t hs hb step
    cases step with
    | call c hallows hc => exact hb.perform hs hallows hc.1 hc.2.1 hc.2.2
    | renegotiate initiator => exact hb.renegotiatePermits hs initiator
  have hinit : Bounded (initial P).state := by
    constructor
    · intro k hk
      cases hk
    · intro k hk
      cases hk
  exact Transition.run_preserves_along (P := fun s : System => Bounded s.state) hsettled hstep run
    hinit

/-- Every permit that runs has at least its minimum and at most its maximum, or at most the
inherited resource if that is more. -/
def State.MinimaGuaranteed (st : State) : Prop :=
  ∀ k ∈ st.allocated, (st.rep k).state = .active ∨ (st.rep k).state = .idle →
    (st.rep k).request.minSwThreads ≤ (st.rep k).grant + (st.rep k).inherited ∧
      ((st.rep k).grant + (st.rep k).inherited : Int) ≤
        max ((st.rep k).inherited : Int) (st.rep k).request.maxSwThreads

/-- In every run that meets the condition, in every state, permits that run have what their
requests ask for. -/
theorem runs_guaranteeMinima (hreach : Reaches P State.Guarantees st) : st.MinimaGuaranteed := by
  have hb := hreach.bounded
  have hs := hreach.settled fun _ _ hc => ⟨hc.1, hc.2.1⟩
  intro k hk hrunning
  have hw := hb.within k hk (hrunning.imp id .inl)
  have hmin := hw.min_le
  have hmax := hw.le_max
  have hpos := (hb.explicit k hk).max_pos
  have hinherited : (st.rep k).inherited ≤ 1 := Bool.toNat_le _
  unfold adjustedMinSwThreads at hmin
  unfold adjustedMaxSwThreads at hmax
  rw [hs.grant_eq hk]
  omega

theorem plainRequest_explicit {min max : Int} (h₁ : 0 ≤ min) (h₂ : min ≤ max) (h₃ : 0 < max) :
    (plainRequest min max).Explicit := ⟨⟨h₁, h₂⟩, h₃⟩

/-- A second permit waits for the resource the first one has. -/
def soloWaiting : State :=
  soloHeld.complete soloPlatform (.requestNew 1 (plainRequest 1 1) (some 20) none)

theorem soloWaiting_reached {guard : State → Call → Prop}
    (hconnect : ∀ st, guard st .connect)
    (hrequest : ∀ st handle, guard st (.requestNew 1 (plainRequest 1 1) handle none)) :
    Reaches soloPlatform guard soloWaiting := by
  have hword : (plainRequest 1 1).IsWord :=
    plainRequest_isWord (by decide) (by decide) (by decide) (by decide)
  have hconnected := (reaches_initial soloPlatform guard).complete (c := .connect) trivial
    (hconnect _)
  have hheld := hconnected.complete (c := .requestNew 1 (plainRequest 1 1) (some 10) none)
    ⟨by decide +kernel, hword, by decide +kernel⟩ (hrequest _ _)
  exact hheld.complete (c := .requestNew 1 (plainRequest 1 1) (some 20) none)
    ⟨by decide +kernel, hword, by decide +kernel⟩ (hrequest _ _)

theorem soloWaiting_minimaGuaranteed :
    Reaches soloPlatform State.Guarantees soloWaiting ∧ soloWaiting.MinimaGuaranteed := by
  have hreach : Reaches soloPlatform State.Guarantees soloWaiting := by
    apply soloWaiting_reached
    · exact fun _ => ⟨trivial, trivial, trivial⟩
    · exact fun _ _ => ⟨rfl, trivial,
        plainRequest_explicit (by decide) (by decide) (by decide)⟩
  exact ⟨hreach, runs_guaranteeMinima hreach⟩

/-- The calls of a run have no constraints and explicit bounds. -/
def Call.Explicit : Call → Prop
  | .requestNew _ req _ _ => req.cpuConstraints = none ∧ req.Explicit
  | .request _ req _ => req.cpuConstraints = none ∧ req.Explicit
  | _ => True

/-- The permit that waits is deactivated and activated again. Nothing has changed since its
request, so it becomes active without resources. -/
theorem soloWaiting_activate_violates :
    Reaches soloPlatform (fun _ c => c.Explicit)
        ((soloWaiting.complete soloPlatform (.deactivate 20)).complete soloPlatform
          (.activate 20 none)) ∧
      ¬ ((soloWaiting.complete soloPlatform (.deactivate 20)).complete soloPlatform
          (.activate 20 none)).MinimaGuaranteed := by
  constructor
  · have hwaiting : Reaches soloPlatform (fun _ c => c.Explicit) soloWaiting :=
      soloWaiting_reached (fun _ => trivial)
        fun _ _ => ⟨rfl, plainRequest_explicit (by decide) (by decide) (by decide)⟩
    have hdeactivated := hwaiting.complete (c := .deactivate 20)
      ⟨by decide +kernel, by decide +kernel⟩ trivial
    exact hdeactivated.complete ⟨by decide +kernel, by decide +kernel⟩ trivial
  · intro hguaranteed
    exact absurd (hguaranteed 20 (by decide +kernel) (.inl (by decide +kernel))).1
      (by decide +kernel)

end OneTbb.Tcm
