import OneTbb.Tcm.Clients
import OneTbb.Tcm.Unconstrained

/-!
# Thread composability manager: conservation of resources

As long as all requests are without constraints, nothing ever wraps, so that the
resources available and those held add up to what the platform has.
-/

namespace OneTbb.Tcm

open State List Function

variable {P : Platform} {out : Set Handle} {st : State} {h : Handle}

theorem Settled.sound (hs : Settled P out st) : Sound P out st := ⟨hs.placed, hs.balanced⟩

theorem Sound.settled (hs : Sound P out st) (hw : st.wrapped = false)
    (hplain : ∀ k ∈ st.allocated, (st.rep k).Plain) : Settled P out st :=
  ⟨hs.placed, hs.balanced, hw, hplain⟩

/-! ## Permits stay without constraints -/

variable {req : PermitRequest} {p : Permit} {client : ClientId}

theorem Permit.Plain.updated {p : Permit} (hp : p.Plain) (c : PermitChange) :
    (p.updated c).Plain where
  unconstrained := hp.unconstrained
  single := (storeConcurrencies_length _ _).trans hp.single
  word := hp.word

theorem plain_setPermit (hplain : ∀ k ∈ st.allocated, (st.rep k).Plain)
    (hp : p.Plain) : ∀ k ∈ (st.setPermit h p).allocated, ((st.setPermit h p).rep k).Plain := by
  intro k hk
  by_cases hkh : k = h
  · subst hkh
    rw [setPermit_rep_self]
    exact hp
  · rw [setPermit_rep_of_ne st h hkh]
    exact hplain k hk

theorem plain_apply {cs : List PermitChange} (hplain : ∀ k ∈ st.allocated, (st.rep k).Plain)
    (hal : ∀ c ∈ cs, c.handle ∈ st.allocated) (initiator : Option Handle) (first : Bool) :
    ∀ k ∈ (st.apply cs initiator first).allocated,
      ((st.apply cs initiator first).rep k).Plain := by
  have hfold : ∀ acc : State × Int, acc.1.allocated = st.allocated →
      (∀ k ∈ acc.1.allocated, (acc.1.rep k).Plain) →
      ∀ k ∈ (cs.foldl (State.applyChange initiator first) acc).1.allocated,
        ((cs.foldl (State.applyChange initiator first) acc).1.rep k).Plain := by
    induction cs with
    | nil => exact fun acc _ hacc => hacc
    | cons c rest ih =>
      intro acc hsame hacc
      apply ih (fun c' hc' => hal c' (mem_cons_of_mem c hc'))
      · rw [applyChange_allocated]
        exact hsame
      · intro k hk
        rw [applyChange_allocated] at hk
        rw [applyChange_rep]
        by_cases hkc : k = c.handle
        · subst hkc
          rw [update_self]
          exact (hacc _ hk).updated c
        · rw [update_of_ne hkc]
          exact hacc k hk
  exact hfold (st, 0) rfl hplain

section

variable (hs : Settled P out st) (hal : h ∈ st.allocated)
include hs hal

/-! ## Negotiations -/

theorem Settled.negotiate_unwrapped (initiator : Option Handle) (first : Bool) :
    (st.apply (st.negotiate P (st.plainFulfillment h) h) initiator first).wrapped = false := by
  obtain ⟨cs, hcs, hafford, hcover⟩ := negotiate_affordable hs hal
  rw [hcs]
  apply apply_wrapped hs.balanced hs.unwrapped hs.placed.allocated_nodup
  · intro c hc
    obtain hc | hc := mem_append.mp hc
    · exact hafford.asked.allocated _ (mem_map_of_mem hc)
    · rw [mem_singleton.mp hc]
      exact hal
  · rw [map_append]
    apply List.Nodup.append hafford.asked.nodup (nodup_singleton _)
    intro k hk hk'
    exact hafford.asked.ne k hk (mem_singleton.mp hk')
  · intro c hc
    obtain hc | hc := mem_append.mp hc
    · exact hafford.underflow c hc
    · rw [mem_singleton.mp hc]
      rfl
  · exact hcover

/-- What the search finds names competitors only. -/
theorem Settled.plainFulfillment_names :
    (st.plainFulfillment h).Names (st.Competes h) := by
  have hnames := @trySatisfyRequest_names P st h
  rw [trySatisfyRequest_plain (hs.plain h hal)] at hnames
  exact hnames

theorem Settled.negotiate (hout : h ∉ out) :
    Settled P out (st.apply (st.negotiate P (st.plainFulfillment h) h) none true) := by
  have hnames := hs.plainFulfillment_names hal
  apply (hs.sound.negotiate hal hout hnames).settled
  · exact hs.negotiate_unwrapped hal _ _
  · exact plain_apply hs.plain (negotiate_allocated hs.placed hal hnames) _ _

/-! ## Resources that come back -/

theorem Settled.grant_unwrapped :
    (st.addAvailable (st.rep h).grant).wrapped = false := by
  have hle := hs.available_add_le hal
  have hlt := P.platformResources_lt
  unfold State.addAvailable
  simp only [hs.unwrapped, hs.grant_eq hal, Bool.false_or, decide_eq_false_iff_not]
  omega

end

theorem Permit.Plain.emptied (hp : p.Plain) :
    ({ p with concurrency := p.concurrency.map fun _ => 0 } : Permit).Plain where
  unconstrained := hp.unconstrained
  single := by
    rw [length_map]
    exact hp.single
  word := hp.word

theorem Settled.grabLazyInactive (hs : Settled P out st) :
    Settled P out st.grabLazyInactive := by
  apply hs.sound.grabLazyInactive.settled
  · unfold State.grabLazyInactive
    cases hlazy : st.lazyInactivePermit with
    | none => exact hs.unwrapped
    | some l => exact hs.grant_unwrapped (hs.placed.lazy_inactive l hlazy).1
  · unfold State.grabLazyInactive
    cases hlazy : st.lazyInactivePermit with
    | none => exact hs.plain
    | some l =>
      have hal := (hs.placed.lazy_inactive l hlazy).1
      exact plain_setPermit hs.plain (hs.plain l hal).emptied

/-! ## Operations -/

/-- Nothing wrapped, and no constraints. -/
structure Exact (st : State) : Prop where
  unwrapped : st.wrapped = false
  plain : ∀ k ∈ st.allocated, (st.rep k).Plain

theorem Settled.exact (hs : Settled P out st) : Exact st := ⟨hs.unwrapped, hs.plain⟩

theorem Sound.settled_of_exact (hs : Sound P out st) (he : Exact st) : Settled P out st :=
  hs.settled he.unwrapped he.plain

namespace Exact

theorem setPermit (he : Exact st) (hp : p.Plain) : Exact (st.setPermit h p) :=
  ⟨he.unwrapped, plain_setPermit he.plain hp⟩

theorem removePermit (he : Exact st) (s : PermitState) : Exact (st.removePermit h s) where
  unwrapped := by
    rw [removePermit_wrapped]
    exact he.unwrapped
  plain := by
    rw [removePermit_allocated, removePermit_rep]
    exact he.plain

theorem addPermit (he : Exact st) (s : PermitState) : Exact (st.addPermit h s) where
  unwrapped := by
    rw [addPermit_wrapped]
    exact he.unwrapped
  plain := by
    rw [addPermit_allocated, addPermit_rep]
    exact he.plain

/-- Recording the epoch in a permit changes nothing else. -/
theorem snapshot (he : Exact st) (hal : h ∈ st.allocated) :
    Exact (st.setPermit h { st.rep h with tcmEpochSnapshot := st.tcmStateEpoch }) := by
  have hp := he.plain h hal
  exact he.setPermit ⟨hp.unconstrained, hp.single, hp.word⟩

end Exact

theorem Permit.Plain.determineNestedPermit (hp : p.Plain) (top : Option Handle) :
    (p.determineNestedPermit h top).Plain := by
  obtain ⟨nested, heq⟩ := p.determineNestedPermit_eq (h := h) top
  rw [heq]
  exact ⟨hp.unconstrained, hp.single, hp.word⟩

theorem State.setPermit_self (st : State) (h : Handle) : st.setPermit h (st.rep h) = st := by
  unfold State.setPermit
  rw [Function.update_eq_self]

theorem adjustExistingPermit_plain (hp : (st.grabLazyInactive.rep h).Plain) :
    st.adjustExistingPermit P h =
      (st.grabLazyInactive,
        if Word.signed (st.grabLazyInactive.plainFulfillment h).numSatisfiable <
            (st.grabLazyInactive.rep h).adjustedMinSwThreads ∨
            (st.grabLazyInactive.plainFulfillment h).pendingConstraintsIndices ≠ [] then []
        else st.grabLazyInactive.negotiate P (st.grabLazyInactive.plainFulfillment h) h) := by
  simp only [State.adjustExistingPermit, trySatisfyRequest_plain hp, setPermit_self]
  split
  · rfl
  · rfl

theorem Settled.adjustExistingPermit_apply (hs : Settled P out st.grabLazyInactive)
    (hal : h ∈ st.allocated) :
    Exact ((st.adjustExistingPermit P h).1.apply (st.adjustExistingPermit P h).2
      (some h) false) := by
  have hal' := mem_grabLazyInactive hal
  have hnames := hs.plainFulfillment_names hal'
  rw [adjustExistingPermit_plain (hs.plain h hal')]
  split
  · exact ⟨apply_wrapped hs.balanced hs.unwrapped hs.placed.allocated_nodup (by simp) (by simp)
      (by simp) (by simp), plain_apply hs.plain (by simp) _ _⟩
  · exact ⟨hs.negotiate_unwrapped hal' _ _,
      plain_apply hs.plain (negotiate_allocated hs.placed hal' hnames) _ _⟩

/-! ### Requests -/

theorem PermitRequest.IsWord.deduced (hreq : req.IsWord) {sumMin : Int}
    (hlo : -2147483648 ≤ sumMin) (hhi : sumMin < 2147483648) :
    (deduceRequestArguments P req sumMin).IsWord := by
  have hsigned := Word.signed_range P.processConcurrency
  obtain ⟨hmin, hmin', hmax, hmax'⟩ := hreq
  unfold deduceRequestArguments
  constructor
  · split
    · exact hlo
    · exact hmin
  · split
    · exact hhi
    · exact hmin'
  · simp only
    split
    · exact hsigned.1
    · exact hmax
  · simp only
    split
    · exact hsigned.2
    · exact hmax'

theorem acceptRequest_unconstrained (hreq : req.cpuConstraints = none)
    {sumMin : Int} (haccept : acceptRequest P req = some sumMin) : sumMin = 0 := by
  unfold acceptRequest at haccept
  simp only [hreq] at haccept
  split_ifs at haccept
  exact (Option.some.inj haccept).symm

theorem Permit.Plain.asks {q : Permit} {req : PermitRequest} (hp : p.Plain) (hq : p.Asks q req)
    (hconstraints : req.cpuConstraints = none) (hword : req.IsWord) : q.Plain where
  unconstrained := by rw [hq.request, hconstraints]
  single := by rw [hq.concurrency, hp.single]
  word := by rwa [hq.request]

theorem Permit.Plain.requested {q : Permit} (hp : p.Plain)
    (hq : p.Asks q (deduceRequestArguments P p.request 0)) : q.Plain := by
  apply hp.asks hq
  · unfold deduceRequestArguments
    simp only [hp.unconstrained, Option.map_none]
  · exact hp.word.deduced (by decide) (by decide)

theorem Settled.written (hs : Settled P {h} st) (hal : h ∈ st.allocated)
    (hp : (st.rep h).Asks p (deduceRequestArguments P (st.rep h).request 0)) :
    Settled P {h} (st.setPermit h p) :=
  (hs.sound.write hal (Set.mem_singleton h) (congrArg List.sum hp.concurrency)).settled_of_exact
    (hs.exact.setPermit ((hs.plain h hal).requested hp))

theorem Settled.requestResources (hs : Settled P {h} st) (hal : h ∈ st.allocated)
    (top : Option Handle) (available : Nat) :
    Exact (st.requestResources P h top 0 available).state := by
  obtain ⟨p, st', hp, heq, hcases⟩ := st.requestResources_cases P h top 0 available
  have hgrabbed := (hs.written hal hp).grabLazyInactive
  have hal' : h ∈ (st.setPermit h p).grabLazyInactive.allocated :=
    mem_grabLazyInactive hal
  rw [heq]
  obtain rfl | ⟨-, rfl⟩ := hcases
  · have hadjusted : Exact ((st.setPermit h p).adjustExistingPermit P h).1 := by
      rw [adjustExistingPermit_plain (hgrabbed.plain h hal')]
      exact hgrabbed.exact
    apply (hadjusted.addPermit _).snapshot
    rw [addPermit_allocated, adjustExistingPermit_allocated]
    exact hal
  · apply (hgrabbed.adjustExistingPermit_apply hal).snapshot
    rw [apply_allocated, adjustExistingPermit_allocated]
    exact hal

theorem makeNewPermit_plain
    (hreq : req.cpuConstraints = none) (hword : req.IsWord) : (makeNewPermit client req).Plain where
  unconstrained := hreq
  single := by
    change (List.replicate req.size 0).length = 1
    unfold PermitRequest.size
    rw [hreq]
    rfl
  word := hword

theorem Settled.allocateListed (hs : Settled P ∅ st)
    (hnew : h ∉ st.allocated) (hreq : req.cpuConstraints = none) (hword : req.IsWord) :
    Settled P {h} { st.setPermit h (makeNewPermit client req) with
      allocated := h :: st.allocated
      clientToPermit := (client, h) :: st.clientToPermit } := by
  have hzero := makeNewPermit_concurrency_eq_zero client req
  have hsound := hs.sound.allocate hnew (sum_eq_zero hzero)
  have hlisted : Sound P {h} { st.setPermit h (makeNewPermit client req) with
      allocated := h :: st.allocated
      clientToPermit := (client, h) :: st.clientToPermit } :=
    hsound.congr rfl rfl (fun _ => rfl) rfl rfl rfl
  apply hlisted.settled hs.unwrapped
  intro k hk
  change (update st.rep h (makeNewPermit client req) k).Plain
  by_cases hkh : k = h
  · rw [hkh, update_self]
    exact makeNewPermit_plain hreq hword
  · rw [update_of_ne hkh]
    exact hs.plain k ((mem_cons.mp hk).resolve_left hkh)

theorem Settled.requestNewPermit (hs : Settled P ∅ st)
    {handle : Option Handle} (hnew : ∀ h, handle = some h → h ∉ st.allocated)
    (hreq : req.cpuConstraints = none) (hword : req.IsWord) (top : Option Handle) :
    Exact (st.requestNewPermit P client req handle top).state := by
  unfold State.requestNewPermit
  split
  · exact hs.exact
  · exact hs.exact
  · rename_i sumMin h haccept
    obtain rfl := acceptRequest_unconstrained hreq haccept
    split
    · have hlisted : Settled P {h} { st.setPermit h (makeNewPermit client req) with
          allocated := h :: st.allocated
          clientToPermit := (client, h) :: st.clientToPermit } :=
        hs.allocateListed (hnew h rfl) hreq hword
      exact ⟨hlisted.unwrapped, hlisted.plain⟩
    · apply Settled.requestResources
      · exact hs.allocateListed (hnew h rfl) hreq hword
      · exact mem_cons_self

theorem Permit.Plain.released (hp : p.Plain) (s : PermitState) :
    (p.released s).Plain where
  unconstrained := hp.unconstrained
  single := by
    change (p.concurrency.map fun _ => 0).length = 1
    rw [length_map]
    exact hp.single
  word := hp.word

theorem copyRequest_unconstrained {own passed : PermitRequest} (hown : own.cpuConstraints = none)
    (copyMasks : Bool) : (copyRequest own passed copyMasks).cpuConstraints = none := by
  unfold copyRequest
  simp only [hown, Option.map_none]

theorem Settled.freed (hs : Settled P ∅ st) (hal : h ∈ st.allocated) (hp : p.Plain) :
    Exact (((st.removePermit h (st.rep h).state).setPermit h p).addAvailable
      (st.rep h).grant).noteTcmStateChange := by
  have hwritten := (hs.exact.removePermit (h := h) (st.rep h).state).setPermit (h := h) hp
  have hgrant := hs.grant_unwrapped hal
  constructor
  case unwrapped =>
    change (((st.removePermit h (st.rep h).state).wrapped || _) = false)
    change ((st.wrapped || _) = false) at hgrant
    rw [removePermit_wrapped]
    change ((st.wrapped || decide
      (((st.removePermit h (st.rep h).state).availableConcurrency : Int) + _ < 0 ∨
        _ ≤ ((st.removePermit h (st.rep h).state).availableConcurrency : Int) + _)) = false)
    rw [removePermit_availableConcurrency]
    exact hgrant
  case plain => exact hwritten.plain

theorem Permit.Plain.copied (hp : p.Plain) (hword : req.IsWord)
    (copyMasks : Bool) : ({ p with request := copyRequest p.request req copyMasks } : Permit).Plain
    :=
  ⟨copyRequest_unconstrained hp.unconstrained _, hp.single,
    ⟨hword.min_ge, hword.min_lt, hword.max_ge, hword.max_lt⟩⟩

/-- A permit that is requested again is taken out and gives its resources back. -/
theorem Settled.movedToPending (hs : Settled P ∅ st) (hal : h ∈ st.allocated) (hword : req.IsWord) :
    Settled P {h} (((st.removePermit h (st.rep h).state).setPermit h
      ({ st.rep h with request := copyRequest (st.rep h).request req false }.released
        .pending)).addAvailable (st.rep h).grant).noteTcmStateChange := by
  have hal' := mem_takeOut hal
  have hmoved := (hs.sound.takeOut (h := h)).giveBack hal' (Set.mem_singleton h)
    (sum_eq_zero (released_concurrency_eq_zero
      { st.rep h with request := copyRequest (st.rep h).request req false } .pending))
  rw [removePermit_rep] at hmoved
  exact hmoved.settled_of_exact
    (hs.freed hal (((hs.plain h hal).copied hword false).released .pending))

theorem Settled.requestExistingPermit (hs : Settled P ∅ st) (hal : h ∈ st.allocated)
    (hreq : req.cpuConstraints = none) (hword : req.IsWord)
    (top : Option Handle) : Exact (st.requestExistingPermit P h req top).state := by
  have hcopied := (hs.plain h hal).copied hword true
  unfold State.requestExistingPermit
  simp only
  split
  · exact hs.exact
  · rename_i sumMin haccept
    obtain rfl := acceptRequest_unconstrained hreq haccept
    split
    · split
      · exact hs.exact
      · exact hs.exact.setPermit ⟨hcopied.unconstrained, hcopied.single, hcopied.word⟩
    · apply Settled.requestResources
      · exact hs.movedToPending hal hword
      · exact mem_takeOut hal

/-! ### Idling, activating and deactivating -/

theorem Permit.Plain.withState (hp : p.Plain) (s : PermitState) :
    ({ p with state := s } : Permit).Plain := ⟨hp.unconstrained, hp.single, hp.word⟩

theorem Settled.idlePermit (hs : Settled P ∅ st) (hal : h ∈ st.allocated) :
    Exact (st.idlePermit h).state := by
  unfold State.idlePermit
  simp only
  split
  · exact hs.exact
  · have hwritten := hs.exact.setPermit (h := h) ((hs.plain h hal).withState .idle)
    have hremoved := hwritten.removePermit (h := h) .active
    exact hremoved.addPermit (h := h) .idle

theorem Settled.activateUnchanged (hs : Settled P ∅ st) (hal : h ∈ st.allocated)
    (top : Option Handle) : Exact (st.activateUnchanged h top) := by
  unfold State.activateUnchanged
  apply Exact.addPermit
  apply (hs.exact.removePermit _).setPermit
  exact ((hs.plain h hal).withState .active).determineNestedPermit top

theorem Exact.activateTopUp (he : Exact st) (hal : h ∈ st.allocated)
    (hlt : st.availableConcurrency < 4294967296) : Exact (st.activateTopUp h) := by
  have hp := he.plain h hal
  unfold State.activateTopUp
  simp only
  split
  · generalize hchange : min st.availableConcurrency
      (Word.sub (Word.ofInt (st.rep h).request.maxSwThreads) (st.rep h).inherited -
        (st.rep h).grant) = change
    have hle : change ≤ st.availableConcurrency := by omega
    constructor
    case unwrapped =>
      change (st.wrapped || decide _) = false
      rw [he.unwrapped, Bool.false_or, decide_eq_false_iff_not]
      omega
    case plain =>
      have hmore : ({ st.rep h with
          concurrency := (st.rep h).concurrency.modify 0 (Word.add · change) } : Permit).Plain :=
        ⟨hp.unconstrained, by rw [length_modify]; exact hp.single, hp.word⟩
      exact @plain_setPermit (st.addAvailable (-(change : Int))) h _ he.plain hmore
  · exact he

section

variable (hs : Settled P ∅ st) (hal : h ∈ st.allocated)
include hs hal

theorem Settled.activateGranted (top : Option Handle) : Exact (st.activateGranted h top) := by
  have hal' := mem_takeOut hal
  have hnested := (hs.exact.removePermit (h := h) (st.rep h).state).setPermit (h := h)
    ((hs.plain h hal).determineNestedPermit (h := h) top)
  have htopped := hnested.activateTopUp hal' (by
    change (st.removePermit h (st.rep h).state).availableConcurrency < _
    rw [removePermit_availableConcurrency]
    exact hs.balanced.available_lt)
  have hal'' : h ∈ (((st.removePermit h (st.rep h).state).setPermit h
      ((st.rep h).determineNestedPermit h top)).activateTopUp h).allocated := by
    rw [activateTopUp_allocated]
    exact hal'
  unfold State.activateGranted
  apply Exact.addPermit
  exact htopped.setPermit ((htopped.plain h hal'').withState .active)

theorem Settled.activationWritten (hstate : (st.rep h).state = .inactive)
    (hp : (st.rep h).Asks p (st.rep h).request) : Settled P ∅ (st.setPermit h p) := by
  have hplain := hs.plain h hal
  apply (hs.sound.activationWritten hal hstate hp).settled_of_exact
  exact hs.exact.setPermit (hplain.asks hp hplain.unconstrained hplain.word)

theorem Settled.activateSearching (hstate : (st.rep h).state = .inactive) (top : Option Handle) :
    Exact (st.activateSearching P h top) := by
  obtain ⟨p, hp, hcases⟩ := st.activateSearching_cases P h top
  have hgrabbed := (hs.activationWritten hal hstate hp).grabLazyInactive
  have hal' : h ∈ (st.setPermit h p).grabLazyInactive.allocated :=
    mem_grabLazyInactive hal
  obtain heq | ⟨-, heq⟩ := hcases
  · rw [heq]
    apply Exact.addPermit
    rw [adjustExistingPermit_plain (hgrabbed.plain h hal')]
    exact hgrabbed.exact.setPermit ((hgrabbed.plain h hal').withState .pending)
  · rw [heq]
    exact hgrabbed.adjustExistingPermit_apply hal

theorem Settled.activatePermit
    (top : Option Handle) (hguard : st.ActivatesInPlace (.activate h top)) :
    Exact (st.activatePermit P h top).state := by
  unfold State.activatePermit
  simp only
  split
  · exact hs.exact
  · rename_i hactive
    split
    · exact hs.exact
    · rename_i hpending
      split
      · exact hs.activateUnchanged hal top
      · rename_i hchanged
        split
        · apply (hs.activateGranted hal top).snapshot
          rw [activateGranted_allocated]
          exact hal
        · rename_i hgrant
          apply (hs.activateSearching hal (inactive_of_searching hactive hpending hchanged
            (not_not.mp hgrant) hguard) top).snapshot
          rw [activateSearching_allocated]
          exact hal

theorem Settled.deactivatePermit :
    Exact (st.deactivatePermit h).state := by
  have hplain := hs.plain h hal
  have hwritten := (hs.exact.removePermit (h := h) (st.rep h).state).setPermit (h := h)
    (hplain.withState .inactive)
  unfold State.deactivatePermit
  simp only
  split
  · exact hs.exact
  · exact hwritten
  · split
    · exact hs.freed hal (hplain.released .inactive)
    · exact ⟨hwritten.unwrapped, hwritten.plain⟩

end

/-! ### Permits that leave -/

theorem Settled.leave_unwrapped {handles : List Handle} (hs : Settled P out st)
    (hn : handles.Nodup) (hal : ∀ k ∈ handles, k ∈ st.allocated) :
    (st.addAvailable (Word.sum (handles.map fun k => (st.rep k).grant))).wrapped = false := by
  have hheld : Ledger.total (fun p : Permit => p.concurrency.sum) st.rep
      (st.allocated.filter (· ∉ handles)) +
        Ledger.total (fun p : Permit => p.concurrency.sum) st.rep handles = st.held :=
    Ledger.total_filter_notMem hs.placed.allocated_nodup hn hal
  have hsum : Word.sum (handles.map fun k => (st.rep k).grant) ≤
      Ledger.total (fun p : Permit => p.concurrency.sum) st.rep handles := by
    unfold Permit.grant
    rw [Word.sum_map_sum, Word.sum_eq]
    exact Nat.mod_le _ _
  have htotal := hs.total
  have hlt := P.platformResources_lt
  unfold State.addAvailable
  simp only [hs.unwrapped, Bool.false_or, decide_eq_false_iff_not]
  omega

theorem Settled.releasePermit (hs : Settled P ∅ st) (hal : h ∈ st.allocated) :
    Exact (st.releasePermit h).state := by
  have hfreed := hs.freed hal (hs.plain h hal)
  unfold State.releasePermit
  simp only [removePermit_clientToPermit]
  constructor
  case unwrapped => exact hfreed.unwrapped
  case plain =>
    intro k hk
    change k ∈ (st.removePermit h (st.rep h).state).allocated.erase h at hk
    change ((st.removePermit h (st.rep h).state).rep k).Plain
    rw [removePermit_allocated] at hk
    rw [removePermit_rep]
    exact hs.plain k (mem_of_mem_erase hk)

theorem foldl_clearUpPermit_available (handles : List Handle) :
    (handles.foldl State.clearUpPermit st).availableConcurrency = st.availableConcurrency ∧
      (handles.foldl State.clearUpPermit st).wrapped = st.wrapped := by
  induction handles generalizing st with
  | nil => exact ⟨rfl, rfl⟩
  | cons k rest ih =>
    obtain ⟨havail, hwrapped⟩ := @ih (st.clearUpPermit k)
    refine ⟨havail.trans ?_, hwrapped.trans ?_⟩
    · exact removePermit_availableConcurrency _ _ _
    · exact removePermit_wrapped _ _ _

theorem Settled.unregisterClient (hs : Settled P ∅ st) (hr : Registered st) (client : ClientId) :
    Exact (st.unregisterClient client).state := by
  obtain ⟨hrep, hal⟩ := @foldl_clearUpPermit_frame st (st.clientPermits client)
  obtain ⟨havail, hwrapped⟩ := @foldl_clearUpPermit_available st (st.clientPermits client)
  have hleft := hs.leave_unwrapped (hr.clientPermits_nodup client) (by
    intro k hk
    exact (hr.owned _ (Registered.mem_clientPermits.mp hk)).1)
  constructor
  case unwrapped =>
    unfold State.unregisterClient State.addAvailable State.noteTcmStateChange
    simp only at hleft ⊢
    rw [havail, hwrapped]
    exact hleft
  case plain =>
    intro k hk
    change k ∈ ((st.clientPermits client).foldl State.clearUpPermit st).allocated.filter _ at hk
    change (((st.clientPermits client).foldl State.clearUpPermit st).rep k).Plain
    rw [hal] at hk
    rw [hrep]
    exact hs.plain k (mem_of_mem_filter hk)

/-! ### Renegotiation -/

theorem activatePending_plain (hp : (st.rep h).Plain) :
    st.activatePending P h =
      if Word.ofInt (st.rep h).adjustedMinSwThreads ≤ (st.plainFulfillment h).numSatisfiable ∧
          (st.plainFulfillment h).pendingConstraintsIndices = [] then
        st.apply (st.negotiate P (st.plainFulfillment h) h) none true
      else st := by
  simp only [State.activatePending, trySatisfyRequest_plain hp, setPermit_self]

theorem saturateActive_plain (hp : (st.rep h).Plain) :
    st.saturateActive P h = st.apply (st.negotiate P (st.plainFulfillment h) h) none true := by
  simp only [State.saturateActive, trySatisfyRequest_plain hp, setPermit_self]

theorem Settled.activatePending (hs : Settled P out st) (hal : h ∈ st.allocated) (hout : h ∉ out) :
    Settled P out (st.activatePending P h) := by
  rw [activatePending_plain (hs.plain h hal)]
  split
  · exact hs.negotiate hal hout
  · exact hs

theorem Settled.saturateActive (hs : Settled P out st) (hal : h ∈ st.allocated) (hout : h ∉ out) :
    Settled P out (st.saturateActive P h) := by
  rw [saturateActive_plain (hs.plain h hal)]
  exact hs.negotiate hal hout

theorem Settled.renegotiatePermits (hs : Settled P out st) (initiator : Option Handle) :
    Settled P out (st.renegotiatePermits P initiator) := by
  have hkept : KeptByAttempts P out Exact fun _ => True := by
    constructor
    case members => exact fun _ _ _ _ _ _ => trivial
    case activatePending =>
      intro st h hs he hal hout _
      exact ((hs.settled_of_exact he).activatePending hal hout).exact
    case saturateActive =>
      intro st h hs he hal hout _
      exact ((hs.settled_of_exact he).saturateActive hal hout).exact
  obtain ⟨hsound, hexact⟩ := hkept.renegotiatePermits hs.sound hs.exact initiator
  exact hsound.settled_of_exact hexact

/-! ## Runs -/

/-- A call that does not bring constraints. -/
def Call.Unconstrained : Call → Prop
  | .requestNew _ req _ _ => req.cpuConstraints = none
  | .request _ req _ => req.cpuConstraints = none
  | _ => True

theorem Settled.perform (hs : Settled P ∅ st) (hr : Registered st) {c : Call}
    (hallows : st.Allows c) (hplain : c.Unconstrained) (hplace : st.ActivatesInPlace c) :
    Exact (st.perform P c).state := by
  cases c with
  | connect => exact ⟨hs.unwrapped, hs.plain⟩
  | requestNew client req handle top =>
    exact hs.requestNewPermit hallows.2.2 hplain hallows.2.1 top
  | request h req top => exact hs.requestExistingPermit hallows.1.1 hplain hallows.2.1 top
  | idle h => exact hs.idlePermit hallows.1
  | activate h top => exact hs.activatePermit hallows.1 top hplace
  | deactivate h => exact hs.deactivatePermit hallows.1
  | release h => exact hs.releasePermit hallows.1
  | disconnect client => exact hs.unregisterClient hr client

/-- States are settled in every run without constraints that activates permits in place. -/
theorem Reaches.settled {guard : State → Call → Prop} (hreach : Reaches P guard st)
    (hguard : ∀ st c, guard st c → c.Unconstrained ∧ st.ActivatesInPlace c) :
    Settled P ∅ st := by
  have hinit : Exact (initial P).state := by
    refine ⟨rfl, ?_⟩
    intro k hk
    cases hk
  obtain ⟨ho, he⟩ : Orderly P st ∧ Exact st := by
    apply hreach.keeps (fun st c hc => (hguard st c hc).2) hinit
    · intro st c ho he hallows hc
      obtain ⟨hplain, hplace⟩ := hguard st c hc
      exact (ho.sound.settled_of_exact he).perform ho.registered hallows hplain hplace
    · intro st initiator ho he
      exact ((ho.sound.settled_of_exact he).renegotiatePermits initiator).exact
  exact ho.sound.settled_of_exact he

/-- Resources are conserved: what is available and what the permits have adds up, nothing
has wrapped, permits that wait or are deactivated have nothing, and each permit is in the
container of its state and in no other. -/
structure Conserves (P : Platform) (st : State) : Prop where
  conserved : st.availableConcurrency + (st.allocated.map fun k => (st.rep k).grant).sum =
    P.platformResources
  unwrapped : st.wrapped = false
  nothing : ∀ k ∈ st.allocated, (st.rep k).state = .pending ∨
    (st.rep k).state = .inactive ∧ st.lazyInactivePermit ≠ some k → (st.rep k).grant = 0
  once : ∀ c, (st.members c).Nodup
  placed : ∀ k ∈ st.allocated, ∀ c, k ∈ st.members c ↔ (st.rep k).container = some c

theorem Settled.conserves (hs : Settled P ∅ st) : Conserves P st := by
  constructor
  case conserved =>
    have hgrants : (st.allocated.map fun k => (st.rep k).grant) =
        st.allocated.map fun k => (st.rep k).concurrency.sum :=
      map_congr_left fun k hk => hs.grant_eq hk
    rw [hgrants]
    exact hs.total
  case unwrapped => exact hs.unwrapped
  case nothing =>
    intro k hk hstate
    rw [hs.grant_eq hk]
    apply sum_eq_zero
    obtain hpending | ⟨hinactive, hlazy⟩ := hstate
    · refine hs.placed.holdsOnlyOwned k hk (Set.notMem_empty k) ?_ (hs.plain k hk).single.le
        (.inl hpending)
      intro heq
      have := (hs.placed.lazy_inactive k heq).2.2
      rw [hpending] at this
      cases this
    · exact hs.placed.holdsOnlyOwned k hk (Set.notMem_empty k) hlazy (hs.plain k hk).single.le
        (.inr hinactive)
  case once => exact hs.placed.nodup
  case placed =>
    intro k hk c
    rw [hs.placed.mem_iff c k]
    constructor
    · exact fun hc => hc.2.2
    · exact fun hc => ⟨hk, Set.notMem_empty k, hc⟩

/-- In every run without constraints in which idle permits without resources are activated
only when nothing has changed, resources are conserved in every state. -/
theorem unconstrainedRuns_conserve
    (hreach : Reaches P (fun st c => c.Unconstrained ∧ st.ActivatesInPlace c) st) :
    Conserves P st :=
  (hreach.settled fun _ _ hc => hc).conserves

/-! ## A run that misplaces a permit -/

/-- A platform with one resource. -/
def soloPlatform : Platform where
  processConcurrency := 1
  processMask := none
  oversubscribed := id
  numaIndices := []
  constraintsAffinityMask := fun _ _ _ => ∅
  priorityQueue := Selection.sortedQueue
  equalRange := id
  equalRange_perm := List.Perm.refl

/-- A request for between `min` and `max` threads. -/
def plainRequest (min max : Int) : PermitRequest := ⟨min, max, none, ⟨false, false⟩⟩

theorem plainRequest_isWord {min max : Int} (h₁ : -2147483648 ≤ min) (h₂ : min < 2147483648)
    (h₃ : -2147483648 ≤ max) (h₄ : max < 2147483648) : (plainRequest min max).IsWord :=
  ⟨h₁, h₂, h₃, h₄⟩

/-- One client, and a permit that has the only resource. -/
def soloHeld : State :=
  ((initial soloPlatform).state.complete soloPlatform .connect).complete soloPlatform
    (.requestNew 1 (plainRequest 1 1) (some 10) none)

/-- A second permit that was activated without resources and idled; then the first one is
released. -/
def soloIdled : State :=
  ((soloHeld.complete soloPlatform (.requestNew 1 (plainRequest 0 1) (some 20) none)).complete
    soloPlatform (.idle 20)).complete soloPlatform (.release 10)

theorem soloHeld_reached {guard : State → Call → Prop}
    (hguard : ∀ st c, (∀ h top, c ≠ .activate h top) → c.Unconstrained → guard st c) :
    Reaches soloPlatform guard soloHeld := by
  have hconnected := (reaches_initial soloPlatform guard).complete (c := .connect) trivial
    (hguard _ _ (fun _ _ => nofun) trivial)
  apply hconnected.complete
  · exact ⟨by decide +kernel, plainRequest_isWord (by decide) (by decide) (by decide) (by decide),
      by decide +kernel⟩
  · exact hguard _ _ (fun _ _ => nofun) rfl

theorem soloHeld_conserves :
    Reaches soloPlatform (fun st c => c.Unconstrained ∧ st.ActivatesInPlace c) soloHeld ∧
      Conserves soloPlatform soloHeld := by
  have hreach : Reaches soloPlatform (fun st c => c.Unconstrained ∧ st.ActivatesInPlace c)
      soloHeld := by
    apply soloHeld_reached
    intro st c hc hplain
    refine ⟨hplain, ?_⟩
    cases c with
    | activate h top => exact absurd rfl (hc h top)
    | _ => trivial
  exact ⟨hreach, unconstrainedRuns_conserve hreach⟩

theorem soloIdled_reached : Reaches soloPlatform (fun _ c => c.Unconstrained) soloIdled := by
  have hheld : Reaches soloPlatform (fun _ c => c.Unconstrained) soloHeld :=
    soloHeld_reached fun _ _ _ hplain => hplain
  have hsecond := hheld.complete (c := .requestNew 1 (plainRequest 0 1) (some 20) none)
    ⟨by decide +kernel, plainRequest_isWord (by decide) (by decide) (by decide) (by decide),
      by decide +kernel⟩ rfl
  have hidled := hsecond.complete (c := .idle 20) ⟨by decide +kernel, by decide +kernel⟩ trivial
  exact hidled.complete (c := .release 10) ⟨by decide +kernel, by decide +kernel⟩ trivial

/-- Activated, the idle permit finds the resource that was released. It becomes active, and
stays among the idle permits. -/
theorem soloIdled_activate_misplaces :
    Reaches soloPlatform (fun _ c => c.Unconstrained)
        (soloIdled.complete soloPlatform (.activate 20 none)) ∧
      ¬ Conserves soloPlatform (soloIdled.complete soloPlatform (.activate 20 none)) := by
  constructor
  · exact soloIdled_reached.complete ⟨by decide +kernel, by decide +kernel⟩ trivial
  · intro hconserves
    have hmem : 20 ∈ (soloIdled.complete soloPlatform (.activate 20 none)).members .idle := by
      decide +kernel
    have hcontainer := (hconserves.placed 20 (by decide +kernel) .idle).mp hmem
    have hactive : ((soloIdled.complete soloPlatform (.activate 20 none)).rep 20).container =
        some .active := by
      decide +kernel
    rw [hactive] at hcontainer
    cases hcontainer

end OneTbb.Tcm
