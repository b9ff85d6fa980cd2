import OneTbb.Library.Transition
import OneTbb.Tcm.Sections

/-!
# Thread composability manager: whose permit it is

The map from clients to permits is written by few sections. All others leave it, the
connected clients, and the owner and the number of entries of every permit alone.
-/

namespace OneTbb.Tcm

open List State Function

/-- Two states with the same permits, owners, clients and map of clients. The permits have
as many entries as before. -/
structure SameClients (st st' : State) : Prop where
  allocated : st'.allocated = st.allocated
  clients : st'.clients = st.clients
  clientToPermit : st'.clientToPermit = st.clientToPermit
  nextClientId : st'.nextClientId = st.nextClientId
  clientId : ∀ k, (st'.rep k).clientId = (st.rep k).clientId
  entries : ∀ k, (st'.rep k).concurrency.length = (st.rep k).concurrency.length

variable {P : Platform} {st st' st'' : State} {h : Handle}

theorem Permit.determineNestedPermit_clientId (p : Permit) (top : Option Handle) :
    (p.determineNestedPermit h top).clientId = p.clientId := by
  obtain ⟨nested, heq⟩ := p.determineNestedPermit_eq (h := h) top
  rw [heq]

namespace SameClients

theorem refl (st : State) : SameClients st st := ⟨rfl, rfl, rfl, rfl, fun _ => rfl, fun _ => rfl⟩

theorem trans (h₁ : SameClients st st') (h₂ : SameClients st' st'') : SameClients st st'' where
  allocated := h₂.allocated.trans h₁.allocated
  clients := h₂.clients.trans h₁.clients
  clientToPermit := h₂.clientToPermit.trans h₁.clientToPermit
  nextClientId := h₂.nextClientId.trans h₁.nextClientId
  clientId := fun k => (h₂.clientId k).trans (h₁.clientId k)
  entries := fun k => (h₂.entries k).trans (h₁.entries k)

theorem setPermit {p : Permit} (hp : p.clientId = (st.rep h).clientId)
    (hlen : p.concurrency.length = (st.rep h).concurrency.length) :
    SameClients st (st.setPermit h p) where
  allocated := rfl
  clients := rfl
  clientToPermit := rfl
  nextClientId := rfl
  clientId := fun k => by
    by_cases hk : k = h
    · subst hk
      rw [setPermit_rep_self]
      exact hp
    · rw [setPermit_rep_of_ne st h hk]
  entries := fun k => by
    by_cases hk : k = h
    · subst hk
      rw [setPermit_rep_self]
      exact hlen
    · rw [setPermit_rep_of_ne st h hk]

theorem dropLazy : SameClients st (st.dropLazy h) := by
  unfold State.dropLazy
  split
  · exact ⟨rfl, rfl, rfl, rfl, fun _ => rfl, fun _ => rfl⟩
  · exact refl st

theorem removePermit (s : PermitState) : SameClients st (st.removePermit h s) := by
  cases s with
  | pending | idle => exact ⟨rfl, rfl, rfl, rfl, fun _ => rfl, fun _ => rfl⟩
  | inactive => exact dropLazy
  | active =>
    unfold State.removePermit
    simp only
    split
    · exact ⟨rfl, rfl, rfl, rfl, fun _ => rfl, fun _ => rfl⟩
    · exact dropLazy

theorem addPermit (s : PermitState) : SameClients st (st.addPermit h s) := by
  cases s with
  | pending | idle => exact ⟨rfl, rfl, rfl, rfl, fun _ => rfl, fun _ => rfl⟩
  | inactive => exact refl st
  | active =>
    unfold State.addPermit
    simp only
    split
    · exact ⟨rfl, rfl, rfl, rfl, fun _ => rfl, fun _ => rfl⟩
    · exact refl st

theorem addAvailable (delta : Int) : SameClients st (st.addAvailable delta) :=
  ⟨rfl, rfl, rfl, rfl, fun _ => rfl, fun _ => rfl⟩

theorem noteTcmStateChange : SameClients st st.noteTcmStateChange :=
  ⟨rfl, rfl, rfl, rfl, fun _ => rfl, fun _ => rfl⟩

theorem applyChange {initiator : Option Handle} {first : Bool} (acc : State × Int)
    (c : PermitChange) : SameClients acc.1 (State.applyChange initiator first acc c).1 := by
  have hremoved : SameClients acc.1
      (if initiator ≠ some c.handle ∨ first = true then
        acc.1.removePermit c.handle (acc.1.rep c.handle).state else acc.1) := by
    split
    · exact removePermit _
    · exact refl _
  have hlen := storeConcurrencies_length (acc.1.rep c.handle).concurrency c.newConcurrencies
  have hwritten := hremoved.trans (setPermit (h := c.handle)
    (p := (acc.1.rep c.handle).updated c) (hremoved.clientId c.handle).symm
    (hlen.trans (hremoved.entries c.handle).symm))
  exact (hwritten.trans (addPermit c.newState)).trans ⟨rfl, rfl, rfl, rfl, fun _ => rfl, fun _ => rfl⟩

theorem apply (cs : List PermitChange) (initiator : Option Handle) (first : Bool) :
    SameClients st (st.apply cs initiator first) := by
  have hfold : ∀ acc : State × Int,
      SameClients acc.1 (cs.foldl (State.applyChange initiator first) acc).1 := by
    induction cs with
    | nil => exact fun acc => refl acc.1
    | cons c rest ih => exact fun acc => (applyChange acc c).trans (ih _)
  exact ((hfold (st, 0)).trans (addAvailable _)).trans noteTcmStateChange

theorem clearUpPermits (handles : List Handle) :
    SameClients st (handles.foldl State.clearUpPermit st) := by
  induction handles generalizing st with
  | nil => exact refl st
  | cons k rest ih => exact (removePermit (h := k) (st.rep k).state).trans ih

end SameClients

/-! ## Sections about one permit -/

/-- An inactive permit other than the lazily deactivated one. -/
structure Rests (k : Handle) (st : State) : Prop where
  inactive : (st.rep k).state = .inactive
  notLazy : st.lazyInactivePermit ≠ some k

/-- A permit at rest that is in no container. -/
structure Unlisted (k : Handle) (st : State) : Prop extends Rests k st where
  notMem : ∀ c, k ∉ st.members c

section

variable {k : Handle}

theorem Rests.of_eq (hr : Rests k st) (hstate : (st'.rep k).state = (st.rep k).state)
    (hlazy : st'.lazyInactivePermit = st.lazyInactivePermit ∨ st'.lazyInactivePermit = none) :
    Rests k st' where
  inactive := hstate.trans hr.inactive
  notLazy := by
    obtain hlazy | hlazy := hlazy
    · rw [hlazy]
      exact hr.notLazy
    · rw [hlazy]
      intro heq
      cases heq

theorem Rests.setPermit (hr : Rests k st) (hk : k ≠ h) (p : Permit) : Rests k (st.setPermit h p) :=
  hr.of_eq (by rw [setPermit_rep_of_ne st h hk]) (.inl rfl)

theorem Rests.removePermit (hr : Rests k st) (s : PermitState) : Rests k (st.removePermit h s) := by
  apply hr.of_eq
  · rw [removePermit_rep]
  · obtain heq | ⟨_, hnone⟩ := st.removePermit_lazyInactivePermit h s
    · exact .inl heq
    · exact .inr hnone

/-- A permit at rest is in no container. -/
theorem Rests.unlisted {out : Set Handle} (hr : Rests k st) (hp : Placed out st) :
    Unlisted k st where
  toRests := hr
  notMem := by
    intro c hmem
    have hc := ((hp.mem_iff c k).mp hmem).2.2
    unfold Permit.container at hc
    rw [hr.inactive] at hc
    cases hc

theorem State.mem_of_removePermit {s : PermitState} {c : Container}
    (hk : k ∈ (st.removePermit h s).members c) : k ∈ st.members c := by
  cases s with
  | inactive => rwa [State.removePermit, dropLazy_members] at hk
  | pending | idle => cases c <;> first | exact hk | exact mem_of_mem_erase hk
  | active =>
    simp only [State.removePermit] at hk
    split at hk
    · cases c <;> first | exact hk | exact mem_of_mem_erase hk
    · rwa [dropLazy_members] at hk

theorem mem_of_insertInto {less : Handle → Handle → Bool} {set : List Handle}
    (hk : k ∈ insertInto less h set) : k = h ∨ k ∈ set := by
  unfold insertInto at hk
  split at hk
  · exact .inr hk
  · exact mem_cons.mp ((Selection.insertUpper_perm h set).mem_iff.mp hk)

theorem State.mem_of_addPermit {s : PermitState} {c : Container}
    (hk : k ∈ (st.addPermit h s).members c) : k = h ∨ k ∈ st.members c := by
  cases s with
  | inactive => exact .inr hk
  | pending | idle => cases c <;> first | exact .inr hk | exact mem_of_insertInto hk
  | active =>
    simp only [State.addPermit] at hk
    split at hk
    · cases c <;> first | exact .inr hk | exact mem_of_insertInto hk
    · exact .inr hk

theorem State.grabLazyInactive_members (c : Container) :
    st.grabLazyInactive.members c = st.members c := by
  unfold State.grabLazyInactive
  cases st.lazyInactivePermit <;> cases c <;> rfl

namespace Unlisted

theorem congr (hr : Unlisted k st) (hstate : (st'.rep k).state = (st.rep k).state)
    (hlazy : st'.lazyInactivePermit = st.lazyInactivePermit ∨ st'.lazyInactivePermit = none)
    (hmem : ∀ c, st'.members c = st.members c) : Unlisted k st' :=
  ⟨hr.of_eq hstate hlazy, fun c => hmem c ▸ hr.notMem c⟩

theorem setPermit (hr : Unlisted k st) (hk : k ≠ h) (p : Permit) : Unlisted k (st.setPermit h p) :=
  hr.congr (by rw [setPermit_rep_of_ne st h hk]) (.inl rfl) (setPermit_members st h p)

theorem removePermit (hr : Unlisted k st) (s : PermitState) : Unlisted k (st.removePermit h s) :=
  ⟨hr.toRests.removePermit s, fun c hmem => hr.notMem c (mem_of_removePermit hmem)⟩

theorem addPermit (hr : Unlisted k st) (hk : k ≠ h) (s : PermitState) :
    Unlisted k (st.addPermit h s) where
  toRests := hr.of_eq (by rw [addPermit_rep]) (.inl (addPermit_lazyInactivePermit st h s))
  notMem c hmem := hr.notMem c ((mem_of_addPermit hmem).resolve_left hk)

theorem apply {cs : List PermitChange} (hr : Unlisted k st) (hcs : ∀ c ∈ cs, k ≠ c.handle)
    (initiator : Option Handle) (first : Bool) : Unlisted k (st.apply cs initiator first) := by
  have hfold : ∀ acc : State × Int, Unlisted k acc.1 →
      Unlisted k (cs.foldl (State.applyChange initiator first) acc).1 := by
    induction cs with
    | nil => exact fun acc hacc => hacc
    | cons c rest ih =>
      intro acc hacc
      apply ih (fun c' hc' => hcs c' (mem_cons_of_mem c hc'))
      have hk := hcs c mem_cons_self
      have hremoved : Unlisted k (if initiator ≠ some c.handle ∨ first = true then
          acc.1.removePermit c.handle (acc.1.rep c.handle).state else acc.1) := by
        split
        · exact hacc.removePermit _
        · exact hacc
      have hadded := (hremoved.setPermit hk ((acc.1.rep c.handle).updated c)).addPermit hk c.newState
      exact hadded.congr rfl (.inl rfl) fun x => by cases x <;> rfl
  exact (hfold (st, 0) hr).congr rfl (.inl rfl) fun x => by cases x <;> rfl

end Unlisted

end

/-- What a section about one permit keeps: the clients, and all other permits at rest. -/
structure Aside (h : Handle) (st st' : State) : Prop where
  same : SameClients st st'
  rests : ∀ k, k ≠ h → Unlisted k st → Unlisted k st'

namespace Aside

theorem refl (st : State) : Aside h st st := ⟨.refl st, fun _ _ hr => hr⟩

theorem trans (h₁ : Aside h st st') (h₂ : Aside h st' st'') : Aside h st st'' :=
  ⟨h₁.same.trans h₂.same, fun k hk hr => h₂.rests k hk (h₁.rests k hk hr)⟩

theorem setPermit {p : Permit} (hp : p.clientId = (st.rep h).clientId)
    (hlen : p.concurrency.length = (st.rep h).concurrency.length) : Aside h st (st.setPermit h p) :=
  ⟨.setPermit hp hlen, fun _ hk hr => hr.setPermit hk p⟩

theorem removePermit (s : PermitState) : Aside h st (st.removePermit h s) :=
  ⟨.removePermit s, fun _ _ hr => hr.removePermit s⟩

theorem addPermit (s : PermitState) : Aside h st (st.addPermit h s) :=
  ⟨.addPermit s, fun _ hk hr => hr.addPermit hk s⟩

theorem addAvailable (delta : Int) : Aside h st (st.addAvailable delta) :=
  ⟨.addAvailable delta, fun _ _ hr => hr.congr rfl (.inl rfl) fun _ => rfl⟩

theorem noteTcmStateChange : Aside h st st.noteTcmStateChange :=
  ⟨.noteTcmStateChange, fun _ _ hr => hr.congr rfl (.inl rfl) fun _ => rfl⟩

/-- No negotiation asks a permit that is in no container. -/
theorem negotiate {f : Fulfillment} (hf : f.Names (st.Competes h)) (initiator : Option Handle)
    (first : Bool) : Aside h st (st.apply (st.negotiate P f h) initiator first) where
  same := .apply _ _ _
  rests := by
    intro k hk hr
    apply hr.apply
    rintro c hc rfl
    obtain hc | hc := mem_append.mp hc
    · obtain hmem | hmem := (mergedChanges_takesFrom hf c hc).competitor.2
      · exact hr.notMem .idle hmem
      · exact hr.notMem .active hmem
    · rw [mem_singleton.mp hc] at hk
      exact hk rfl

theorem searched : Aside h st (st.setPermit h (st.trySatisfyRequest P h).2) := by
  obtain ⟨masks, constraints, max, _, hp⟩ := @trySatisfyRequest_permit P st h
  apply setPermit
  · rw [hp]
  · rw [hp]

theorem saturateActive : Aside h st (st.saturateActive P h) :=
  searched.trans (negotiate (names_of_searched _ trySatisfyRequest_names) _ _)

theorem activatePending : Aside h st (st.activatePending P h) := by
  unfold State.activatePending
  simp only
  split
  · exact searched.trans (negotiate (names_of_searched _ trySatisfyRequest_names) _ _)
  · exact searched

theorem grabLazyInactive : Aside h st st.grabLazyInactive where
  same := by
    unfold State.grabLazyInactive
    cases st.lazyInactivePermit with
    | none => exact .refl st
    | some l =>
      have hwritten : SameClients st (st.setPermit l
          { st.rep l with concurrency := (st.rep l).concurrency.map fun _ => 0 }) :=
        .setPermit rfl (length_map _)
      exact hwritten.trans ⟨rfl, rfl, rfl, rfl, fun _ => rfl, fun _ => rfl⟩
  rests _ _ hr :=
    hr.congr grabLazyInactive_state (.inr grabLazyInactive_lazy) grabLazyInactive_members

/-- The search of an operation, and the changes it finds. -/
theorem adjustExistingPermit : Aside h st (st.adjustExistingPermit P h).1 ∧
    Aside h (st.adjustExistingPermit P h).1 ((st.adjustExistingPermit P h).1.apply
      (st.adjustExistingPermit P h).2 (some h) false) := by
  have hsearched := grabLazyInactive.trans (@searched P st.grabLazyInactive h)
  unfold State.adjustExistingPermit
  simp only
  split
  · exact ⟨hsearched, (addAvailable _).trans noteTcmStateChange⟩
  · exact ⟨hsearched, negotiate (names_of_searched _ trySatisfyRequest_names) _ _⟩

theorem written {p : Permit} {req : PermitRequest} (hp : (st.rep h).Asks p req) :
    Aside h st (st.setPermit h p) :=
  setPermit hp.clientId (congrArg List.length hp.concurrency)

theorem requestResources (top : Option Handle) (sumMin : Int) (available : Nat) :
    Aside h st (st.requestResources P h top sumMin available).state := by
  obtain ⟨p, st', hp, heq, hcases⟩ := st.requestResources_cases P h top sumMin available
  have hadjusted := (written hp).trans (adjustExistingPermit (P := P)).1
  rw [heq]
  refine Aside.trans ?_ (setPermit rfl rfl)
  obtain rfl | ⟨-, rfl⟩ := hcases
  · exact hadjusted.trans (addPermit _)
  · exact hadjusted.trans adjustExistingPermit.2

theorem requestExistingPermit (req : PermitRequest) (top : Option Handle) :
    Aside h st (st.requestExistingPermit P h req top).state := by
  unfold State.requestExistingPermit
  simp only
  split
  · exact refl st
  · split
    · split
      · exact refl st
      · exact setPermit rfl rfl
    · refine Aside.trans ?_ (requestResources _ _ _)
      refine Aside.trans ?_ noteTcmStateChange
      refine Aside.trans ?_ (addAvailable _)
      refine (removePermit (st.rep h).state).trans (setPermit ?_ ?_)
      · rw [removePermit_rep]
        rfl
      · rw [removePermit_rep]
        exact length_map _

theorem idlePermit : Aside h st (st.idlePermit h).state := by
  unfold State.idlePermit
  simp only
  split
  · exact refl st
  · have hwritten : Aside h st (st.setPermit h { st.rep h with state := .idle }) :=
      setPermit rfl rfl
    have hremoved := hwritten.trans (removePermit (h := h) .active)
    exact hremoved.trans (addPermit (h := h) .idle)

theorem activateTopUp : Aside h st (st.activateTopUp h) := by
  unfold State.activateTopUp
  simp only
  split
  · refine Aside.trans ?_ noteTcmStateChange
    exact (addAvailable _).trans (setPermit rfl (length_modify _ _ _))
  · exact refl st

/-- A permit taken out and written again has the owner it had. -/
theorem takenOut {p : Permit} (hp : p.clientId = (st.rep h).clientId)
    (hlen : p.concurrency.length = (st.rep h).concurrency.length) :
    Aside h st ((st.removePermit h (st.rep h).state).setPermit h p) := by
  apply (removePermit (h := h) (st.rep h).state).trans (setPermit ?_ ?_)
  · rw [removePermit_rep]
    exact hp
  · rw [removePermit_rep]
    exact hlen

theorem activateUnchanged (top : Option Handle) : Aside h st (st.activateUnchanged h top) := by
  refine Aside.trans ?_ (addPermit .active)
  exact takenOut (Permit.determineNestedPermit_clientId _ _)
    (congrArg List.length (Permit.determineNestedPermit_concurrency _ _))

theorem activateGranted (top : Option Handle) : Aside h st (st.activateGranted h top) := by
  have hnested : Aside h st ((st.removePermit h (st.rep h).state).setPermit h
      ((st.rep h).determineNestedPermit h top)) :=
    takenOut (Permit.determineNestedPermit_clientId _ _)
      (congrArg List.length (Permit.determineNestedPermit_concurrency _ _))
  refine Aside.trans ?_ (addPermit .active)
  refine Aside.trans ?_ (setPermit rfl rfl)
  exact hnested.trans activateTopUp

theorem activateSearching (top : Option Handle) :
    Aside h st (st.activateSearching P h top) := by
  obtain ⟨p, hp, hcases⟩ := st.activateSearching_cases P h top
  have hadjusted := (written hp).trans (adjustExistingPermit (P := P)).1
  obtain heq | ⟨-, heq⟩ := hcases
  · rw [heq]
    refine Aside.trans ?_ (addPermit .pending)
    exact hadjusted.trans (setPermit rfl rfl)
  · rw [heq]
    exact hadjusted.trans adjustExistingPermit.2

theorem activatePermit (top : Option Handle) :
    Aside h st (st.activatePermit P h top).state := by
  unfold State.activatePermit
  simp only
  split
  · exact refl st
  · split
    · exact refl st
    · split
      · exact activateUnchanged top
      · refine Aside.trans ?_ (setPermit rfl rfl)
        split
        · exact activateGranted top
        · exact activateSearching top

theorem deactivatePermit : Aside h st (st.deactivatePermit h).state := by
  unfold State.deactivatePermit
  simp only
  split
  · exact refl st
  · exact takenOut rfl rfl
  · split
    · have hfreed : Aside h st ((st.removePermit h (st.rep h).state).setPermit h
          ((st.rep h).released .inactive)) := takenOut rfl (length_map _)
      exact (hfreed.trans (addAvailable _)).trans noteTcmStateChange
    · have hkept : Aside h st ((st.removePermit h (st.rep h).state).setPermit h
          { st.rep h with state := .inactive }) := takenOut rfl rfl
      refine hkept.trans ⟨⟨rfl, rfl, rfl, rfl, fun _ => rfl, fun _ => rfl⟩, fun k hk hr => ?_⟩
      exact ⟨⟨hr.inactive, fun heq => hk (Option.some.inj heq).symm⟩, hr.notMem⟩

end Aside

open Aside in
theorem SameClients.renegotiatePermits (initiator : Option Handle) :
    SameClients st (st.renegotiatePermits P initiator) := by
  have hpending : ∀ (handles : List Handle) (st : State),
      SameClients st (handles.foldl (State.activatePending P) st) := by
    intro handles
    induction handles with
    | nil => exact .refl
    | cons k rest ih => exact fun st => activatePending.same.trans (ih _)
  have hactive : ∀ (handles : List Handle) (st : State),
      SameClients st (State.saturateActives P st handles) := by
    intro handles
    induction handles with
    | nil => exact .refl
    | cons k rest ih =>
      intro st
      unfold State.saturateActives
      split
      · exact saturateActive.same.trans (ih _)
      · exact .refl st
  unfold State.renegotiatePermits
  simp only
  split
  · exact (hpending _ st).trans (hactive _ _)
  · exact hpending _ st

/-! ## The map from clients to permits -/

/-- Each permit is listed at most once, and under its owner. -/
structure Registered (st : State) : Prop where
  nodup : (st.clientToPermit.map Prod.snd).Nodup
  owned : ∀ entry ∈ st.clientToPermit,
    entry.2 ∈ st.allocated ∧ (st.rep entry.2).clientId = entry.1

namespace Registered

theorem same (hr : Registered st) (hs : SameClients st st') : Registered st' where
  nodup := by
    rw [hs.clientToPermit]
    exact hr.nodup
  owned := by
    intro entry hentry
    rw [hs.clientToPermit] at hentry
    rw [hs.allocated, hs.clientId]
    exact hr.owned entry hentry

/-- Entries of one permit are one entry. -/
theorem eq_of_handle (hr : Registered st) {e e' : ClientId × Handle}
    (he : e ∈ st.clientToPermit) (he' : e' ∈ st.clientToPermit) (heq : e.2 = e'.2) : e = e' :=
  inj_on_of_nodup_map hr.nodup he he' heq

theorem mem_clientPermits {client : ClientId} {k : Handle} :
    k ∈ st.clientPermits client ↔ (client, k) ∈ st.clientToPermit := by
  unfold State.clientPermits
  rw [mem_map]
  constructor
  · rintro ⟨entry, hentry, rfl⟩
    obtain ⟨hmem, hclient⟩ := mem_filter.mp hentry
    have heq : entry.1 = client := of_decide_eq_true hclient
    rw [← heq]
    exact hmem
  · intro hmem
    exact ⟨(client, k), mem_filter.mpr ⟨hmem, decide_eq_true rfl⟩, rfl⟩

theorem clientPermits_nodup (hr : Registered st) (client : ClientId) :
    (st.clientPermits client).Nodup :=
  hr.nodup.sublist (filter_sublist.map Prod.snd)

end Registered

/-- A client that leaves takes its listed permits out and gives back all they hold. -/
theorem Sound.unregisterClient (hs : Sound P ∅ st) (hr : Registered st) (client : ClientId) :
    Sound P ∅ (st.unregisterClient client).state := by
  obtain ⟨hrep, hal⟩ := @foldl_clearUpPermit_frame st (st.clientPermits client)
  have hcleared : Sound P {k | k ∈ st.clientPermits client}
      ((st.clientPermits client).foldl State.clearUpPermit st) := by
    rw [← Set.union_empty {k | k ∈ st.clientPermits client}]
    exact hs.clearUpPermits
  have hleft := hcleared.leave (hr.clientPermits_nodup client) (by
    intro k hk
    rw [hal]
    exact (hr.owned _ (Registered.mem_clientPermits.mp hk)).1)
  rw [hrep] at hleft
  apply hleft.congr
  case hrep => rfl
  case hal => rfl
  case hmem => exact fun _ => rfl
  case hlazy => rfl
  case havail => rfl
  case hwrapped => rfl

namespace Registered

theorem requestNewPermit (hr : Registered st) {client : ClientId} {req : PermitRequest}
    {handle : Option Handle} (hnew : ∀ h, handle = some h → h ∉ st.allocated)
    (top : Option Handle) : Registered (st.requestNewPermit P client req handle top).state := by
  unfold State.requestNewPermit
  split
  · exact hr
  · exact hr
  · rename_i sumMin h _
    have hfresh : ∀ entry ∈ st.clientToPermit, entry.2 ≠ h := by
      rintro entry hentry rfl
      exact hnew _ rfl (hr.owned entry hentry).1
    have hold : ∀ entry ∈ st.clientToPermit, entry.2 ∈ h :: st.allocated ∧
        (update st.rep h (makeNewPermit client req) entry.2).clientId = entry.1 := by
      intro entry hentry
      obtain ⟨hal, hclient⟩ := hr.owned entry hentry
      rw [update_of_ne (hfresh entry hentry)]
      exact ⟨mem_cons_of_mem h hal, hclient⟩
    split
    · exact ⟨hr.nodup, hold⟩
    · refine Registered.same ?_ (Aside.requestResources _ _ _).same
      constructor
      case nodup =>
        change (h :: st.clientToPermit.map Prod.snd).Nodup
        rw [nodup_cons]
        refine ⟨?_, hr.nodup⟩
        intro hmem
        obtain ⟨entry, hentry, heq⟩ := mem_map.mp hmem
        exact hfresh entry hentry heq
      case owned =>
        intro entry hentry
        obtain rfl | hentry := mem_cons.mp hentry
        · refine ⟨mem_cons_self, ?_⟩
          change (update st.rep h (makeNewPermit client req) h).clientId = client
          rw [update_self]
          rfl
        · exact hold entry hentry

theorem releasePermit (hr : Registered st) : Registered (st.releasePermit h).state := by
  have hsame : SameClients st (st.removePermit h (st.rep h).state) := SameClients.removePermit _
  have hsub := erase_sublist (l := st.clientToPermit) (a := ((st.rep h).clientId, h))
  unfold State.releasePermit
  simp only [removePermit_clientToPermit]
  constructor
  case nodup => exact hr.nodup.sublist (hsub.map Prod.snd)
  case owned =>
    intro entry hentry
    have hmem : entry ∈ st.clientToPermit := hsub.subset hentry
    obtain ⟨hal, hclient⟩ := hr.owned entry hmem
    have hne : entry.2 ≠ h := by
      rintro heq
      have hpair : entry = ((st.rep h).clientId, h) := by
        rw [← heq, hclient]
      have hnodup : st.clientToPermit.Nodup := hr.nodup.of_map Prod.snd
      change entry ∈ st.clientToPermit.erase ((st.rep h).clientId, h) at hentry
      rw [hpair] at hentry
      exact hnodup.not_mem_erase hentry
    change entry.2 ∈ (st.removePermit h (st.rep h).state).allocated.erase h ∧
      ((st.removePermit h (st.rep h).state).rep entry.2).clientId = entry.1
    rw [hsame.allocated, hsame.clientId]
    exact ⟨(mem_erase_of_ne hne).mpr hal, hclient⟩

theorem unregisterClient (hr : Registered st) (client : ClientId) :
    Registered (st.unregisterClient client).state := by
  obtain ⟨hrep, hal⟩ := @foldl_clearUpPermit_frame st (st.clientPermits client)
  have hregistry : ((st.clientPermits client).foldl State.clearUpPermit st).clientToPermit =
      st.clientToPermit := (SameClients.clearUpPermits _).clientToPermit
  constructor
  case nodup =>
    change ((((st.clientPermits client).foldl State.clearUpPermit st).clientToPermit.filter
      (·.1 ≠ client)).map Prod.snd).Nodup
    rw [hregistry]
    exact hr.nodup.sublist (filter_sublist.map Prod.snd)
  case owned =>
    intro entry hentry
    change entry ∈ ((st.clientPermits client).foldl State.clearUpPermit st).clientToPermit.filter
      (·.1 ≠ client) at hentry
    rw [hregistry] at hentry
    obtain ⟨hmem, hother⟩ := mem_filter.mp hentry
    obtain ⟨hmine, hclient⟩ := hr.owned entry hmem
    change entry.2 ∈ ((st.clientPermits client).foldl State.clearUpPermit st).allocated.filter
        (· ∉ st.clientPermits client) ∧
      (((st.clientPermits client).foldl State.clearUpPermit st).rep entry.2).clientId = entry.1
    rw [hrep, hal]
    refine ⟨mem_filter.mpr ⟨hmine, decide_eq_true ?_⟩, hclient⟩
    intro hleaves
    have heq := hr.eq_of_handle hmem (mem_clientPermits.mp hleaves) rfl
    exact of_decide_eq_true hother (congrArg Prod.fst heq)

end Registered

/-! ## Runs -/

/-- What holds between sections: a sound state with its permits registered. -/
structure Orderly (P : Platform) (st : State) : Prop where
  sound : Sound P ∅ st
  registered : Registered st

theorem orderly_initial : Orderly P (initial P).state := by
  constructor
  case sound =>
    constructor
    case placed =>
      constructor
      case allocated_nodup => exact nodup_nil
      case nodup => intro c; cases c <;> exact nodup_nil
      case mem_iff => intro c k; cases c <;> simp [initial, State.members]
      case lazy_inactive => intro k hk; cases hk
      case holdsOnlyOwned => intro k hk; cases hk
    case balanced =>
      constructor
      case available_lt => exact P.platformResources_lt
      case modulo =>
        have hlt := P.platformResources_lt
        change ((P.platformResources : Int) + (0 : Nat) + 0) % 4294967296 = _
        omega
      case exact =>
        intro _
        change (P.platformResources : Int) + (0 : Nat) + 0 = _
        omega
  case registered =>
    constructor
    case nodup => exact nodup_nil
    case owned =>
      intro entry hentry
      cases hentry

theorem Orderly.perform (ho : Orderly P st) {c : Call} (hallows : st.Allows c)
    (hplace : st.ActivatesInPlace c) : Orderly P (st.perform P c).state := by
  obtain ⟨hs, hr⟩ := ho
  cases c with
  | connect =>
    constructor
    · exact hs.congr rfl rfl (fun _ => rfl) rfl rfl rfl
    · exact ⟨hr.nodup, hr.owned⟩
  | requestNew client req handle top =>
    exact ⟨hs.requestNewPermit hallows.2.2 top, hr.requestNewPermit hallows.2.2 top⟩
  | request h req top =>
    exact ⟨hs.requestExistingPermit hallows.1.1 req top,
      hr.same (Aside.requestExistingPermit req top).same⟩
  | idle h => exact ⟨hs.idlePermit hallows.1, hr.same Aside.idlePermit.same⟩
  | activate h top =>
    exact ⟨hs.activatePermit hallows.1 top hplace, hr.same (Aside.activatePermit top).same⟩
  | deactivate h => exact ⟨hs.deactivatePermit hallows.1, hr.same Aside.deactivatePermit.same⟩
  | release h => exact ⟨hs.releasePermit hallows.1, hr.releasePermit⟩
  | disconnect client => exact ⟨hs.unregisterClient hr client, hr.unregisterClient client⟩

/-- In runs that activate permits in place states are orderly, and have what calls and
renegotiations of orderly states keep. -/
theorem Reaches.keeps {guard : State → Call → Prop} {Q : State → Prop}
    (hreach : Reaches P guard st) (hplace : ∀ st c, guard st c → st.ActivatesInPlace c)
    (hinit : Q (initial P).state)
    (hcall : ∀ st c, Orderly P st → Q st → st.Allows c → guard st c → Q (st.perform P c).state)
    (hrenegotiate : ∀ st initiator, Orderly P st → Q st → Q (st.renegotiatePermits P initiator)) :
    Orderly P st ∧ Q st := by
  obtain ⟨owed, run⟩ := hreach
  have hstep : ∀ s t : System, Orderly P s.state ∧ Q s.state → Step P guard s t →
      Orderly P t.state ∧ Q t.state := by
    rintro s t ⟨ho, hq⟩ step
    cases step with
    | call c hallows hc => exact ⟨ho.perform hallows (hplace _ c hc), hcall _ c ho hq hallows hc⟩
    | renegotiate initiator =>
      refine ⟨⟨ho.sound.renegotiatePermits initiator, ?_⟩, hrenegotiate _ initiator ho hq⟩
      exact ho.registered.same (SameClients.renegotiatePermits initiator)
  exact Transition.run_preserves (P := fun s : System => Orderly P s.state ∧ Q s.state) hstep run
    ⟨orderly_initial, hinit⟩

end OneTbb.Tcm
