import OneTbb.Tcm.Manager
import OneTbb.Tcm.Requests

/-!
# Thread composability manager: the operations

The operations of the manager's interface, each as the section it runs under the
lock. Some have to renegotiate afterwards, which takes the lock again, so that
sections of other callers may come in between.
-/

namespace OneTbb.Tcm

/-- `tcm_result_t` -/
inductive Result where
  | success
  | errorInvalidArgument
  | errorUnknown
  deriving DecidableEq, Repr

/-- What an operation leaves when it gives up the lock: the state, the initiator of
the renegotiation that is still to be done, and what it returns. -/
structure Outcome where
  state : State
  renegotiation : Option (Option Handle)
  result : Result

namespace State

/-- The part of `request_permit` common to new and existing permits. `top` is the
permit registered last by the calling thread. -/
def requestResources (P : Platform) (st : State) (h : Handle) (top : Option Handle)
    (sumConstraintsMin : Int) (initiallyAvailable : Nat) : Outcome :=
  let p := (st.rep h).determineNestedPermit h top
  let st := st.setPermit h { p with
    request := deduceRequestArguments P p.request sumConstraintsMin
    flags := { p.flags with requestAsInactive := false } }
  let (st, updates) := st.adjustExistingPermit P h
  let st := if updates.isEmpty then st.addPermit h .pending else st.apply updates (some h) false
  let st := st.setPermit h { st.rep h with tcmEpochSnapshot := st.tcmStateEpoch }
  { state := st
    renegotiation := if initiallyAvailable < st.availableConcurrency then some (some h) else none
    result := .success }

/-- `tcmRequestPermit` for a new permit; the handle is what the allocation returns. -/
def requestNewPermit (P : Platform) (st : State) (client : ClientId) (req : PermitRequest)
    (handle : Option Handle) (top : Option Handle) : Outcome :=
  match acceptRequest P req, handle with
  | none, _ => ⟨st, none, .errorInvalidArgument⟩
  | some _, none => ⟨st, none, .errorUnknown⟩
  | some sumMin, some h =>
    let made := { st.setPermit h (makeNewPermit client req) with
      allocated := h :: st.allocated }
    if req.flags.requestAsInactive then ⟨made, none, .success⟩
    else
      let made := { made with clientToPermit := (client, h) :: made.clientToPermit }
      made.requestResources P h top sumMin st.availableConcurrency

/-- `tcmRequestPermit` for an existing permit. -/
def requestExistingPermit (P : Platform) (st : State) (h : Handle) (req : PermitRequest)
    (top : Option Handle) : Outcome :=
  let p := st.rep h
  match acceptRequest P req with
  | none => ⟨st, none, .errorInvalidArgument⟩
  | some sumMin =>
    if req.flags.requestAsInactive then
      if p.state ≠ .inactive ∨
          (req.cpuConstraints.getD []).length ≠ (p.request.cpuConstraints.getD []).length then
        ⟨st, none, .errorInvalidArgument⟩
      else
        ⟨st.setPermit h { p with request := copyRequest p.request req true, flags := req.flags },
          none, .success⟩
    else
      let moved := (st.removePermit h p.state).setPermit h
        ({ p with request := copyRequest p.request req false }.released .pending)
      let moved := (moved.addAvailable p.grant).noteTcmStateChange
      moved.requestResources P h top sumMin st.availableConcurrency

/-- `idle_permit` -/
def idlePermit (st : State) (h : Handle) : Outcome :=
  let p := st.rep h
  if p.state ≠ .active then ⟨st, none, .errorInvalidArgument⟩
  else
    let st := st.setPermit h { p with state := .idle }
    let st := (st.removePermit h .active).addPermit h .idle
    ⟨st, if st.hasResourceDemand then some none else none, .success⟩

/-- Activation when nothing has changed since the permit last asked for resources. -/
def activateUnchanged (st : State) (h : Handle) (top : Option Handle) : State :=
  let p := st.rep h
  let st := st.removePermit h p.state
  let st := st.setPermit h ({ p with state := .active }.determineNestedPermit h top)
  st.addPermit h .active

/-- The activated permit asks for resources up to its maximum, if it has some and
there are more. -/
def activateTopUp (st : State) (h : Handle) : State :=
  let p := st.rep h
  let desiredConcurrency := Word.sub (Word.ofInt p.request.maxSwThreads) p.inherited
  if p.grant < desiredConcurrency ∧ 0 < st.availableConcurrency ∧ ¬ p.isConstrained then
    let change := min st.availableConcurrency (desiredConcurrency - p.grant)
    let st := st.addAvailable (-change)
    (st.setPermit h { p with
      concurrency := p.concurrency.modify 0 (Word.add · change) }).noteTcmStateChange
  else st

/-- Activation of a permit that has resources. -/
def activateGranted (st : State) (h : Handle) (top : Option Handle) : State :=
  let p := st.rep h
  let st := st.removePermit h p.state
  let st := (st.setPermit h (p.determineNestedPermit h top)).activateTopUp h
  let st := st.setPermit h { st.rep h with state := .active }
  st.addPermit h .active

/-- Activation of a permit that has none. The permit is taken to be in no container. -/
def activateSearching (P : Platform) (st : State) (h : Handle) (top : Option Handle) : State :=
  let p := (st.rep h).determineNestedPermit h top
  let st := st.setPermit h { p with flags := { p.flags with requestAsInactive := false } }
  let (st, updates) := st.adjustExistingPermit P h
  if updates.isEmpty then
    (st.setPermit h { st.rep h with state := .pending }).addPermit h .pending
  else st.apply updates (some h) false

/-- The condition for `activateUnchanged`. -/
def isUnchangedFor (st : State) (p : Permit) : Bool :=
  st.tcmStateEpoch == p.tcmEpochSnapshot && !p.flags.requestAsInactive

/-- `activate_permit` -/
def activatePermit (P : Platform) (st : State) (h : Handle) (top : Option Handle) : Outcome :=
  let p := st.rep h
  if p.state = .active then ⟨st, none, .success⟩
  else if p.state = .pending then ⟨st, none, .errorInvalidArgument⟩
  else if st.isUnchangedFor p then ⟨st.activateUnchanged h top, none, .success⟩
  else
    let st := if p.grant ≠ 0 then st.activateGranted h top else st.activateSearching P h top
    ⟨st.setPermit h { st.rep h with tcmEpochSnapshot := st.tcmStateEpoch }, none, .success⟩

/-- `deactivate_permit`. The resources of a permit that owns some stay with it, if
nobody asks for them and no other permit was deactivated so. -/
def deactivatePermit (st : State) (h : Handle) : Outcome :=
  let p := st.rep h
  let removed := st.removePermit h p.state
  match p.state with
  | .inactive => ⟨st, none, .success⟩
  | .pending => ⟨removed.setPermit h { p with state := .inactive }, none, .success⟩
  | _ =>
    let hasAnotherLazyInactivePermit :=
      removed.lazyInactivePermit.isSome && removed.lazyInactivePermit != some h
    if hasAnotherLazyInactivePermit || removed.hasResourceDemand then
      let freed := ((removed.setPermit h (p.released .inactive)).addAvailable p.grant)
        |>.noteTcmStateChange
      ⟨freed,
        if removed.availableConcurrency < freed.availableConcurrency then some none else none,
        .success⟩
    else
      ⟨{ removed.setPermit h { p with state := .inactive } with lazyInactivePermit := some h },
        none, .success⟩

/-- `release_permit` -/
def releasePermit (st : State) (h : Handle) : Outcome :=
  let p := st.rep h
  let cleared := { st with clientToPermit := st.clientToPermit.erase (p.clientId, h) }
  let cleared := ((cleared.removePermit h p.state).addAvailable p.grant).noteTcmStateChange
  ⟨{ cleared with allocated := cleared.allocated.erase h },
    if 0 < p.grant ∧ cleared.hasResourceDemand then some none else none, .success⟩

/-- The permits `clear_up_internals_from` finds for a client. -/
def clientPermits (st : State) (client : ClientId) : List Handle :=
  (st.clientToPermit.filter (·.1 = client)).map (·.2)

/-- `clear_up_internals_from` for one permit of a client that leaves. -/
def clearUpPermit (st : State) (h : Handle) : State := st.removePermit h (st.rep h).state

/-- `unregister_client` -/
def unregisterClient (st : State) (client : ClientId) : Outcome :=
  let handles := st.clientPermits client
  let concurrency := Word.sum (handles.map fun h => (st.rep h).grant)
  let cleared := handles.foldl clearUpPermit st
  let cleared := { cleared with
    clientToPermit := cleared.clientToPermit.filter (·.1 ≠ client)
    clients := cleared.clients.erase client }
  let cleared := (cleared.addAvailable concurrency).noteTcmStateChange
  ⟨{ cleared with allocated := cleared.allocated.filter (· ∉ handles) },
    if 0 < concurrency ∧ cleared.hasResourceDemand then some none else none, .success⟩

/-- `register_client` -/
def registerClient (st : State) : State :=
  { st with clients := st.nextClientId :: st.clients, nextClientId := st.nextClientId + 1 }

end State

/-! ## Runs -/

/-- A call of the interface. `top` is the permit registered last by the caller. -/
inductive Call where
  | connect
  | requestNew (client : ClientId) (req : PermitRequest) (handle top : Option Handle)
  | request (h : Handle) (req : PermitRequest) (top : Option Handle)
  | idle (h : Handle)
  | activate (h : Handle) (top : Option Handle)
  | deactivate (h : Handle)
  | release (h : Handle)
  | disconnect (client : ClientId)

/-- The section of a call that runs under the lock. -/
def State.perform (P : Platform) (st : State) : Call → Outcome
  | .connect => ⟨st.registerClient, none, .success⟩
  | .requestNew client req handle top => st.requestNewPermit P client req handle top
  | .request h req top => st.requestExistingPermit P h req top
  | .idle h => st.idlePermit h
  | .activate h top => st.activatePermit P h top
  | .deactivate h => st.deactivatePermit h
  | .release h => st.releasePermit h
  | .disconnect client => st.unregisterClient client

/-- A permit that was not released, of a client that is connected. -/
def State.Owned (st : State) (h : Handle) : Prop :=
  h ∈ st.allocated ∧ (st.rep h).clientId ∈ st.clients

/-- What the clients of the interface keep to: only connected clients call, and only
with permits they have. Memory in use is not allocated again, and a request for an
existing permit has the constraints of the permit. -/
def State.Allows (st : State) : Call → Prop
  | .connect => True
  | .requestNew client req handle _ =>
    client ∈ st.clients ∧ req.IsWord ∧ ∀ h, handle = some h → h ∉ st.allocated
  | .request h req _ =>
    st.Owned h ∧ req.IsWord ∧ (req.flags.requestAsInactive = false →
      req.cpuConstraints.isSome = (st.rep h).request.cpuConstraints.isSome ∧
        req.size = (st.rep h).request.size)
  | .idle h => st.Owned h
  | .activate h _ => st.Owned h
  | .deactivate h => st.Owned h
  | .release h => st.Owned h
  | .disconnect client => client ∈ st.clients

/-- The manager, and the initiators of the renegotiations that callers who have given
up the lock are about to do. -/
structure System where
  state : State
  owed : List (Option Handle)

/-- The manager at the start. -/
def initial (P : Platform) : System where
  state :=
    { availableConcurrency := P.platformResources
      tcmStateEpoch := 0
      rep := fun _ => makeNewPermit 0 ⟨0, 0, none, ⟨false, false⟩⟩
      allocated := []
      pendingPermits := []
      idlePermits := []
      activePermits := []
      lazyInactivePermit := none
      nextClientId := 1
      clients := []
      clientToPermit := []
      wrapped := false }
  owed := []

/-- One section under the lock: that of a call for which the guard holds, or a
renegotiation owed. Calls made one after the other, each with its renegotiation,
are among the runs. -/
inductive Step (P : Platform) (guard : State → Call → Prop) : System → System → Prop
  | call {st : State} {owed : List (Option Handle)} (c : Call) :
      st.Allows c → guard st c →
      Step P guard ⟨st, owed⟩
        ⟨(st.perform P c).state, (st.perform P c).renegotiation.toList ++ owed⟩
  | renegotiate {st : State} {xs ys : List (Option Handle)} (initiator : Option Handle) :
      Step P guard ⟨st, xs ++ initiator :: ys⟩ ⟨st.renegotiatePermits P initiator, xs ++ ys⟩

/-- The states runs lead to if all their calls meet the guard. -/
def Reaches (P : Platform) (guard : State → Call → Prop) (st : State) : Prop :=
  ∃ owed, Relation.ReflTransGen (Step P guard) (initial P) ⟨st, owed⟩

/-- A call with the renegotiation it asks for, when no other caller comes in between. -/
def State.complete (P : Platform) (st : State) (c : Call) : State :=
  match (st.perform P c).renegotiation with
  | none => (st.perform P c).state
  | some initiator => (st.perform P c).state.renegotiatePermits P initiator

/-- Complete calls are runs. -/
theorem Reaches.complete {P : Platform} {guard : State → Call → Prop} {st : State}
    (hreach : Reaches P guard st) {c : Call} (hallows : st.Allows c) (hguard : guard st c) :
    Reaches P guard (st.complete P c) := by
  obtain ⟨owed, run⟩ := hreach
  have hcalled := run.tail (Step.call c hallows hguard)
  unfold State.complete
  cases hrenegotiation : (st.perform P c).renegotiation with
  | none =>
    rw [hrenegotiation] at hcalled
    exact ⟨_, hcalled⟩
  | some initiator =>
    rw [hrenegotiation] at hcalled
    exact ⟨_, hcalled.tail (@Step.renegotiate P guard _ [] owed initiator)⟩

theorem reaches_initial (P : Platform) (guard : State → Call → Prop) :
    Reaches P guard (initial P).state := ⟨_, Relation.ReflTransGen.refl⟩

end OneTbb.Tcm
