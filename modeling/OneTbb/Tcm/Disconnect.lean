import OneTbb.Tcm.Conservation

/-!
# Thread composability manager: what a client leaves behind

A permit that is inactive and holds nothing is touched only by operations on itself. So
once the permits of a client that has left rest, they rest for good.
-/

namespace OneTbb.Tcm

open List Function State Relation

variable {P : Platform} {out : Set Handle} {st : State} {h k : Handle}

theorem Rests.renegotiatePermits (hr : Rests k st) (hs : Sound P out st) (initiator : Option Handle) :
    Rests k (st.renegotiatePermits P initiator) := by
  have hkept : KeptByAttempts P out (Rests k) fun j => k ≠ j := by
    constructor
    case members =>
      rintro st c j hs hr hj rfl
      exact (hr.unlisted hs.placed).notMem c hj
    case activatePending =>
      intro st j hs hr hal _ hk
      exact (Aside.activatePending.rests k hk (hr.unlisted hs.placed)).toRests
    case saturateActive =>
      intro st j hs hr hal _ hk
      exact (Aside.saturateActive.rests k hk (hr.unlisted hs.placed)).toRests
  exact (hkept.renegotiatePermits hs hr initiator).2

/-! ## Permits of clients that have left -/

/-- A client that disconnects leaves permits that are not listed for it only at rest. -/
def State.LeavesAtRest (st : State) : Call → Prop
  | .disconnect client => ∀ k ∈ st.allocated, (st.rep k).clientId = client →
      (client, k) ∉ st.clientToPermit → Rests k st
  | _ => True

/-- A request for a new permit has at most one constraint, so that the permit has one entry. -/
def Call.SingleEntry : Call → Prop
  | .requestNew _ req _ _ => req.size ≤ 1
  | _ => True

/-- Every permit has at most one entry, and is of a connected client or rests. Identifiers
are given out once. -/
structure Attended (st : State) : Prop where
  nodup : st.clients.Nodup
  issued : ∀ client ∈ st.clients, client < st.nextClientId
  attended : ∀ k ∈ st.allocated, (st.rep k).clientId ∈ st.clients ∨ Rests k st
  single : ∀ k ∈ st.allocated, (st.rep k).concurrency.length ≤ 1

variable {guard : State → Call → Prop} {client : ClientId}

namespace Attended

variable {st' : State}

/-- Sections that leave the clients alone need to care for permits at rest only. -/
theorem same (ha : Attended st) (hs : SameClients st st')
    (hrests : ∀ k ∈ st.allocated, (st.rep k).clientId ∉ st.clients → Rests k st → Rests k st') :
    Attended st' where
  nodup := by
    rw [hs.clients]
    exact ha.nodup
  issued := by
    rw [hs.clients, hs.nextClientId]
    exact ha.issued
  attended := by
    intro k hk
    rw [hs.allocated] at hk
    rw [hs.clients, hs.clientId]
    by_cases hclient : (st.rep k).clientId ∈ st.clients
    · exact .inl hclient
    · exact .inr (hrests k hk hclient ((ha.attended k hk).resolve_left hclient))
  single := by
    intro k hk
    rw [hs.allocated] at hk
    rw [hs.entries]
    exact ha.single k hk

/-- A permit of a client that has left is not one an operation is about. -/
theorem ne_of_owned (hal : st.Owned h) (hk : (st.rep k).clientId ∉ st.clients) : k ≠ h := by
  rintro rfl
  exact hk hal.2

theorem aside (ha : Attended st) (hp : Placed out st) (hal : st.Owned h) (hs : Aside h st st') :
    Attended st' :=
  ha.same hs.same fun k _ hgone hr => (hs.rests k (ne_of_owned hal hgone) (hr.unlisted hp)).toRests

theorem registerClient (ha : Attended st) : Attended st.registerClient where
  nodup := by
    refine nodup_cons.mpr ⟨?_, ha.nodup⟩
    intro hmem
    exact Nat.lt_irrefl _ (ha.issued _ hmem)
  issued := by
    intro client hclient
    obtain rfl | hclient := mem_cons.mp hclient
    · exact Nat.lt_succ_self _
    · exact Nat.lt_succ_of_lt (ha.issued client hclient)
  attended := by
    intro k hk
    obtain hclient | hr := ha.attended k hk
    · exact .inl (mem_cons_of_mem _ hclient)
    · exact .inr ⟨hr.inactive, hr.notLazy⟩
  single := ha.single

theorem requestNewPermit (ha : Attended st) (hs : Sound P ∅ st)
    {req : PermitRequest} {handle : Option Handle} (hclient : client ∈ st.clients)
    (hnew : ∀ h, handle = some h → h ∉ st.allocated) (hsingle : req.size ≤ 1)
    (top : Option Handle) : Attended (st.requestNewPermit P client req handle top).state := by
  unfold State.requestNewPermit
  split
  · exact ha
  · exact ha
  · rename_i sumMin h _
    have hfresh := hnew h rfl
    have hne : ∀ k ∈ st.allocated, k ≠ h := by
      rintro k hk rfl
      exact hfresh hk
    have hmade : Attended { st.setPermit h (makeNewPermit client req) with
        allocated := h :: st.allocated } := by
      constructor
      case nodup => exact ha.nodup
      case issued => exact ha.issued
      case attended =>
        intro k hk
        obtain rfl | hold := mem_cons.mp hk
        · left
          change (update st.rep k (makeNewPermit client req) k).clientId ∈ st.clients
          rw [update_self]
          exact hclient
        · obtain hmem | hr := ha.attended k hold
          · left
            change (update st.rep h (makeNewPermit client req) k).clientId ∈ st.clients
            rw [update_of_ne (hne k hold)]
            exact hmem
          · have hset := hr.setPermit (hne k hold) (makeNewPermit client req)
            exact .inr ⟨hset.inactive, hset.notLazy⟩
      case single =>
        intro k hk
        change (update st.rep h (makeNewPermit client req) k).concurrency.length ≤ 1
        obtain rfl | hold := mem_cons.mp hk
        · rw [update_self]
          exact length_replicate.trans_le hsingle
        · rw [update_of_ne (hne k hold)]
          exact ha.single k hold
    simp only
    split
    · exact hmade
    · have hsound := hs.allocate hfresh
        (sum_eq_zero (makeNewPermit_concurrency_eq_zero client req))
      have hlisted : Attended { st.setPermit h (makeNewPermit client req) with
          allocated := h :: st.allocated
          clientToPermit := (client, h) :: st.clientToPermit } :=
        ⟨hmade.nodup, hmade.issued, fun k hk => (hmade.attended k hk).imp id
          fun hr => ⟨hr.inactive, hr.notLazy⟩, hmade.single⟩
      refine hlisted.aside (show Placed {h} _ from ?_) ⟨mem_cons_self, ?_⟩
        (Aside.requestResources _ _ _)
      · exact Sound.placed (hsound.congr rfl rfl (fun _ => rfl) rfl rfl rfl)
      change (update st.rep h (makeNewPermit client req) h).clientId ∈ st.clients
      rw [update_self]
      exact hclient

theorem releasePermit (ha : Attended st) : Attended (st.releasePermit h).state := by
  have hsame : SameClients st (st.removePermit h (st.rep h).state) := .removePermit _
  unfold State.releasePermit
  simp only [removePermit_clientToPermit]
  constructor
  case nodup =>
    change (st.removePermit h (st.rep h).state).clients.Nodup
    rw [hsame.clients]
    exact ha.nodup
  case issued =>
    change ∀ client ∈ (st.removePermit h (st.rep h).state).clients,
      client < (st.removePermit h (st.rep h).state).nextClientId
    rw [hsame.clients, hsame.nextClientId]
    exact ha.issued
  case attended =>
    intro k hk
    change k ∈ (st.removePermit h (st.rep h).state).allocated.erase h at hk
    rw [hsame.allocated] at hk
    change ((st.removePermit h (st.rep h).state).rep k).clientId ∈
      (st.removePermit h (st.rep h).state).clients ∨ _
    rw [hsame.clientId, hsame.clients]
    obtain hclient | hr := ha.attended k (mem_of_mem_erase hk)
    · exact .inl hclient
    · have hremoved := hr.removePermit (h := h) (st.rep h).state
      exact .inr ⟨hremoved.inactive, hremoved.notLazy⟩
  case single =>
    intro k hk
    change k ∈ (st.removePermit h (st.rep h).state).allocated.erase h at hk
    rw [hsame.allocated] at hk
    change ((st.removePermit h (st.rep h).state).rep k).concurrency.length ≤ 1
    rw [hsame.entries]
    exact ha.single k (mem_of_mem_erase hk)

end Attended

theorem Rests.clearUpPermits (hr : Rests k st) (handles : List Handle) :
    Rests k (handles.foldl State.clearUpPermit st) := by
  induction handles generalizing st with
  | nil => exact hr
  | cons j rest ih => exact ih (hr.removePermit _)

theorem Attended.unregisterClient (ha : Attended st)
    (hrest : st.LeavesAtRest (.disconnect client)) :
    Attended (st.unregisterClient client).state := by
  have hsame : SameClients st ((st.clientPermits client).foldl State.clearUpPermit st) :=
    .clearUpPermits _
  constructor
  case nodup =>
    change (((st.clientPermits client).foldl State.clearUpPermit st).clients.erase client).Nodup
    rw [hsame.clients]
    exact ha.nodup.erase client
  case issued =>
    change ∀ c ∈ ((st.clientPermits client).foldl State.clearUpPermit st).clients.erase client,
      c < ((st.clientPermits client).foldl State.clearUpPermit st).nextClientId
    rw [hsame.clients, hsame.nextClientId]
    intro c hc
    exact ha.issued c (mem_of_mem_erase hc)
  case attended =>
    intro k hk
    change k ∈ ((st.clientPermits client).foldl State.clearUpPermit st).allocated.filter
      (· ∉ st.clientPermits client) at hk
    rw [hsame.allocated] at hk
    obtain ⟨hal, hkept⟩ := mem_filter.mp hk
    have hkept : k ∉ st.clientPermits client := of_decide_eq_true hkept
    change (((st.clientPermits client).foldl State.clearUpPermit st).rep k).clientId ∈
      ((st.clientPermits client).foldl State.clearUpPermit st).clients.erase client ∨ _
    rw [hsame.clientId, hsame.clients]
    have hstays : Rests k st → Rests k (st.unregisterClient client).state := by
      intro hr
      have hcleared := hr.clearUpPermits (st.clientPermits client)
      exact ⟨hcleared.inactive, hcleared.notLazy⟩
    by_cases hown : (st.rep k).clientId = client
    · right
      apply hstays
      apply hrest k hal hown
      intro hmem
      exact hkept (Registered.mem_clientPermits.mpr hmem)
    · obtain hclient | hr := ha.attended k hal
      · exact .inl ((mem_erase_of_ne hown).mpr hclient)
      · exact .inr (hstays hr)
  case single =>
    intro k hk
    change k ∈ ((st.clientPermits client).foldl State.clearUpPermit st).allocated.filter
      (· ∉ st.clientPermits client) at hk
    rw [hsame.allocated] at hk
    change (((st.clientPermits client).foldl State.clearUpPermit st).rep k).concurrency.length ≤ 1
    rw [hsame.entries]
    exact ha.single k (mem_of_mem_filter hk)

theorem Attended.perform (ha : Attended st) (ho : Orderly P st) {c : Call} (hallows : st.Allows c)
    (hplace : st.ActivatesInPlace c) (hrest : st.LeavesAtRest c) (hsingle : c.SingleEntry) :
    Attended (st.perform P c).state := by
  have hs := ho.sound
  cases c with
  | connect => exact ha.registerClient
  | requestNew client req handle top =>
    exact ha.requestNewPermit hs hallows.1 hallows.2.2 hsingle top
  | request h req top =>
    exact ha.aside hs.placed hallows.1 (Aside.requestExistingPermit req top)
  | idle h => exact ha.aside hs.placed hallows Aside.idlePermit
  | activate h top => exact ha.aside hs.placed hallows (Aside.activatePermit top)
  | deactivate h => exact ha.aside hs.placed hallows Aside.deactivatePermit
  | release h => exact ha.releasePermit
  | disconnect client => exact ha.unregisterClient hrest

theorem attended_initial : Attended (initial P).state := by
  constructor
  case nodup => exact nodup_nil
  case issued =>
    intro client hclient
    cases hclient
  case attended =>
    intro k hk
    cases hk
  case single =>
    intro k hk
    cases hk

/-- What the runs considered keep to. -/
def State.DisconnectsCleanly (st : State) (c : Call) : Prop :=
  st.ActivatesInPlace c ∧ st.LeavesAtRest c ∧ c.SingleEntry

theorem Reaches.attended (hreach : Reaches P guard st)
    (hguard : ∀ st c, guard st c → st.DisconnectsCleanly c) :
    Orderly P st ∧ Attended st := by
  apply hreach.keeps (fun st c hc => (hguard st c hc).1) attended_initial
  · intro st c ho ha hallows hc
    obtain ⟨hplace, hrest, hsingle⟩ := hguard st c hc
    exact ha.perform ho hallows hplace hrest hsingle
  · intro st initiator ho ha
    apply ha.same (SameClients.renegotiatePermits initiator)
    intro k _ _ hr
    exact hr.renegotiatePermits ho.sound initiator

/-! ## What a disconnected client has returned -/

/-- The permits of the other clients. -/
def State.permitsOfOthers (st : State) (client : ClientId) : List Handle :=
  st.allocated.filter fun k => (st.rep k).clientId ≠ client

/-- Nothing of a client is in use, and the resources are available or with other clients.
The sum is one of 32-bit words. -/
structure Returned (P : Platform) (client : ClientId) (st : State) : Prop where
  container : ∀ c, ∀ k ∈ st.members c, (st.rep k).clientId ≠ client
  notLazy : ∀ k, st.lazyInactivePermit = some k → (st.rep k).clientId ≠ client
  resources : Word.add st.availableConcurrency
    (Word.sum ((st.permitsOfOthers client).map fun k => (st.rep k).grant)) = P.platformResources

/-- The permits that a client has left behind hold nothing. -/
theorem Orderly.sum_permitsOfOthers (ho : Orderly P st) (ha : Attended st)
    (hleft : client ∉ st.clients) :
    ((st.permitsOfOthers client).map fun k => (st.rep k).concurrency.sum).sum = st.held := by
  apply Ledger.total_filter_of_zero (w := fun p : Permit => p.concurrency.sum)
  intro k hk hclient
  have hclient : (st.rep k).clientId = client := by simpa using hclient
  have hr : Rests k st := by
    apply (ha.attended k hk).resolve_left
    rw [hclient]
    exact hleft
  exact sum_eq_zero
    (ho.sound.placed.holdsOnlyOwned k hk (Set.notMem_empty k) hr.notLazy (ha.single k hk)
      (.inr hr.inactive))

theorem Orderly.returned (ho : Orderly P st) (ha : Attended st)
    (hleft : client ∉ st.clients) : Returned P client st := by
  have hrests : ∀ k ∈ st.allocated, (st.rep k).clientId = client → Rests k st := by
    intro k hk hclient
    apply (ha.attended k hk).resolve_left
    rw [hclient]
    exact hleft
  constructor
  case container =>
    intro c k hk hclient
    have hal := ((ho.sound.placed.mem_iff c k).mp hk).1
    exact ((hrests k hal hclient).unlisted ho.sound.placed).notMem c hk
  case notLazy =>
    intro k hk hclient
    obtain ⟨hal, _, _⟩ := ho.sound.placed.lazy_inactive k hk
    exact (hrests k hal hclient).notLazy hk
  case resources =>
    have hsum := ho.sum_permitsOfOthers ha hleft
    have hmod := ho.sound.balanced.modulo
    unfold Permit.grant
    rw [Word.sum_map_sum, Word.sum_eq, hsum]
    unfold Word.add
    omega

/-- A client that has disconnected. Its identifier is not given out again. -/
structure Departed (client : ClientId) (st : State) : Prop where
  left : client ∉ st.clients
  issued : client < st.nextClientId

namespace Departed

variable {client : ClientId} {st' : State}

section

variable (hd : Departed client st)
include hd

theorem congr (hclients : st'.clients = st.clients)
    (hnext : st'.nextClientId = st.nextClientId) : Departed client st' := by
  constructor
  · rw [hclients]
    exact hd.left
  · rw [hnext]
    exact hd.issued

theorem same (hs : SameClients st st') : Departed client st' :=
  hd.congr hs.clients hs.nextClientId

theorem requestNewPermit {c : ClientId} {req : PermitRequest}
    {handle : Option Handle} (top : Option Handle) :
    Departed client (st.requestNewPermit P c req handle top).state := by
  unfold State.requestNewPermit
  split
  · exact hd
  · exact hd
  · simp only
    split
    · exact hd.congr rfl rfl
    · refine Departed.same ?_ (Aside.requestResources _ _ _).same
      exact hd.congr rfl rfl

theorem releasePermit : Departed client (st.releasePermit h).state := by
  have hsame : SameClients st (st.removePermit h (st.rep h).state) := .removePermit _
  unfold State.releasePermit
  simp only [removePermit_clientToPermit]
  exact hd.congr hsame.clients hsame.nextClientId

theorem unregisterClient (c : ClientId) :
    Departed client (st.unregisterClient c).state := by
  have hsame : SameClients st ((st.clientPermits c).foldl State.clearUpPermit st) :=
    .clearUpPermits _
  constructor
  · change client ∉ ((st.clientPermits c).foldl State.clearUpPermit st).clients.erase c
    rw [hsame.clients]
    intro hmem
    exact hd.left (mem_of_mem_erase hmem)
  · change client < ((st.clientPermits c).foldl State.clearUpPermit st).nextClientId
    rw [hsame.nextClientId]
    exact hd.issued

theorem registerClient : Departed client st.registerClient := by
  constructor
  · intro hmem
    obtain heq | hmem := mem_cons.mp hmem
    · exact absurd hd.issued (Nat.not_lt_of_le heq.ge)
    · exact hd.left hmem
  · exact Nat.lt_succ_of_lt hd.issued

end

theorem step {s t : System} (hd : Departed client s.state)
    (hstep : Step P guard s t) : Departed client t.state := by
  cases hstep with
  | renegotiate initiator => exact hd.same (SameClients.renegotiatePermits initiator)
  | call c _ _ =>
    cases c with
    | connect => exact hd.registerClient
    | requestNew c req handle top => exact hd.requestNewPermit top
    | request h req top => exact hd.same (Aside.requestExistingPermit req top).same
    | idle h => exact hd.same Aside.idlePermit.same
    | activate h top => exact hd.same (Aside.activatePermit top).same
    | deactivate h => exact hd.same Aside.deactivatePermit.same
    | release h => exact hd.releasePermit
    | disconnect c => exact hd.unregisterClient c

/-- A client that disconnects has departed. -/
theorem of_unregisterClient (ha : Attended st) (hclient : client ∈ st.clients) :
    Departed client (st.unregisterClient client).state := by
  have hsame : SameClients st ((st.clientPermits client).foldl State.clearUpPermit st) :=
    .clearUpPermits _
  constructor
  · change client ∉ ((st.clientPermits client).foldl State.clearUpPermit st).clients.erase client
    rw [hsame.clients]
    exact ha.nodup.not_mem_erase
  · change client < ((st.clientPermits client).foldl State.clearUpPermit st).nextClientId
    rw [hsame.nextClientId]
    exact ha.issued client hclient

end Departed

/-- From the moment a client has disconnected, nothing of it is in use and all resources are
available or with other clients. As numbers the amounts add up if all requests are without
constraints. -/
theorem disconnect_returnsEverything {guard : State → Call → Prop}
    (hguard : ∀ st c, guard st c → st.DisconnectsCleanly c)
    {owed owed' : List (Option Handle)} {st' : State} {client : ClientId}
    (hreach : ReflTransGen (Step P guard) (initial P) ⟨st, owed⟩)
    (hclient : client ∈ st.clients) (hclean : guard st (.disconnect client))
    (hlater : ReflTransGen (Step P guard)
      ⟨(st.unregisterClient client).state,
        (st.unregisterClient client).renegotiation.toList ++ owed⟩ ⟨st', owed'⟩) :
    Returned P client st' ∧
      ((∀ st c, guard st c → c.Unconstrained) →
        st'.availableConcurrency + ((st'.permitsOfOthers client).map
          fun k => (st'.rep k).grant).sum = P.platformResources) := by
  have hbefore : Reaches P guard st := ⟨owed, hreach⟩
  have hreach' : Reaches P guard st' :=
    ⟨owed', (hreach.tail (Step.call (.disconnect client) hclient hclean)).trans hlater⟩
  obtain ⟨ho, ha⟩ := hreach'.attended hguard
  have hdeparted : Departed client st' :=
    Transition.run_preserves (P := fun s : System => Departed client s.state)
      (fun _ _ hd hstep => hd.step hstep) hlater
      (Departed.of_unregisterClient (hbefore.attended hguard).2 hclient)
  refine ⟨ho.returned ha hdeparted.left, ?_⟩
  intro hplain
  have hs := hreach'.settled fun st c hc => ⟨hplain st c hc, (hguard st c hc).1⟩
  have hgrants : ((st'.permitsOfOthers client).map fun k => (st'.rep k).grant) =
      (st'.permitsOfOthers client).map fun k => (st'.rep k).concurrency.sum :=
    map_congr_left fun k hk => hs.grant_eq (mem_of_mem_filter hk)
  rw [hgrants, ho.sum_permitsOfOthers ha hdeparted.left]
  exact hs.total

/-! ## Runs with two clients -/

/-- Two clients, of which the first has a permit with the only resource. -/
def twoClients : State :=
  (((initial soloPlatform).state.complete soloPlatform .connect).complete soloPlatform
    .connect).complete soloPlatform (.requestNew 1 (plainRequest 1 1) (some 10) none)

theorem twoClients_run (hconnect : ∀ st, guard st .connect)
    (hrequest : ∀ st, guard st (.requestNew 1 (plainRequest 1 1) (some 10) none)) :
    ReflTransGen (Step soloPlatform guard) (initial soloPlatform) ⟨twoClients, []⟩ := by
  have hfirst := ReflTransGen.refl.tail
    (@Step.call soloPlatform guard (initial soloPlatform).state [] .connect trivial (hconnect _))
  have hsecond := hfirst.tail (@Step.call soloPlatform guard _ [] .connect trivial (hconnect _))
  exact hsecond.tail (@Step.call soloPlatform guard _ []
    (.requestNew 1 (plainRequest 1 1) (some 10) none)
    ⟨by decide +kernel, plainRequest_isWord (by decide) (by decide) (by decide) (by decide),
      by decide +kernel⟩ (hrequest _))

theorem twoClients_listed : ∀ k ∈ twoClients.allocated, (twoClients.rep k).clientId = 1 →
    (1, k) ∉ twoClients.clientToPermit → Rests k twoClients := by
  have hlisted : ∀ k ∈ twoClients.allocated, (1, k) ∈ twoClients.clientToPermit := by
    decide +kernel
  intro k hk _ hnot
  exact absurd (hlisted k hk) hnot

theorem twoClients_disconnect :
    Returned soloPlatform 1 (twoClients.unregisterClient 1).state ∧
      (twoClients.unregisterClient 1).state.availableConcurrency = 1 := by
  constructor
  · exact (@disconnect_returnsEverything _ _ State.DisconnectsCleanly (fun _ _ hc => hc) _ _ _ _
      (twoClients_run (fun _ => ⟨trivial, trivial, trivial⟩)
        (fun _ => ⟨trivial, trivial, Nat.le_refl 1⟩))
      (by decide +kernel) ⟨trivial, twoClients_listed, trivial⟩ ReflTransGen.refl).1
  · decide +kernel

/-- Two clients; the first has requested its permit as inactive and activated it later. -/
def lateActivation : State :=
  ((((initial soloPlatform).state.complete soloPlatform .connect).complete soloPlatform
    .connect).complete soloPlatform
      (.requestNew 1 ⟨1, 1, none, ⟨false, true⟩⟩ (some 10) none)).complete soloPlatform
        (.activate 10 none)

theorem lateActivation_reached :
    Reaches soloPlatform (fun st c => c.Unconstrained ∧ st.ActivatesInPlace c) lateActivation := by
  have hinit := reaches_initial soloPlatform
    fun st c => c.Unconstrained ∧ st.ActivatesInPlace c
  have hfirst := hinit.complete (c := .connect) trivial ⟨trivial, trivial⟩
  have hsecond := hfirst.complete (c := .connect) trivial ⟨trivial, trivial⟩
  have hrequested := hsecond.complete
    (c := .requestNew 1 ⟨1, 1, none, ⟨false, true⟩⟩ (some 10) none)
    ⟨by decide +kernel, ⟨by decide, by decide, by decide, by decide⟩, by decide +kernel⟩
    ⟨rfl, trivial⟩
  apply hrequested.complete
  · exact ⟨by decide +kernel, by decide +kernel⟩
  · refine ⟨trivial, ?_⟩
    intro hidle
    exact absurd hidle (by decide +kernel)

/-- The permit was never listed for its client. It stays active when the client leaves, and
the resource it has is lost. -/
theorem lateActivation_disconnect_leaks :
    Reaches soloPlatform (fun st c => c.Unconstrained ∧ st.ActivatesInPlace c)
        (lateActivation.complete soloPlatform (.disconnect 1)) ∧
      2 ∈ (lateActivation.complete soloPlatform (.disconnect 1)).clients ∧
      ¬ Returned soloPlatform 1 (lateActivation.complete soloPlatform (.disconnect 1)) := by
  have hclient : 1 ∈ lateActivation.clients := by decide +kernel
  refine ⟨?_, by decide +kernel, ?_⟩
  · exact lateActivation_reached.complete hclient ⟨trivial, trivial⟩
  · intro hreturned
    exact hreturned.container .active 10 (by decide +kernel) (by decide +kernel)

end OneTbb.Tcm
