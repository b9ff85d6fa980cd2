import OneTbb.Tcm.Negotiation

/-!
# Thread composability manager: applying changes and renegotiating

Changes of permits move the handles between the containers and the resources
between the permits and the manager. Renegotiation activates the pending permits
that fit and then saturates the active ones.
-/

namespace OneTbb.Tcm

/-! ## Applying changes -/

/-- The loop of `update` over the new concurrencies: the entries stored, and by how
much the old ones exceed them in sum. The sum is exact here; the 32-bit one of the
code agrees with it up to multiples of `2 ^ 32`, and it is only ever added to a word.
A change has no more entries than the permit. -/
def storeConcurrencies : List Nat → List Nat → List Nat × Int
  | old, [] => (old, 0)
  | [], _ :: _ => ([], 0)
  | o :: old, n :: new =>
    let rest := storeConcurrencies old new
    (n :: rest.1, ((o : Int) - n) + rest.2)

/-- `update` -/
def Permit.updated (p : Permit) (change : PermitChange) : Permit :=
  { p with
    state := change.newState
    inheritedConcurrencyIdx := change.inheritedConcurrencyIdx
    concurrency := (storeConcurrencies p.concurrency change.newConcurrencies).1 }

/-- The permit with its resources taken away, in a new state. -/
def Permit.released (p : Permit) (newState : PermitState) : Permit :=
  { p with concurrency := p.concurrency.map fun _ => 0, state := newState }

namespace State

/-- `apply` for one change: the state, and the delta summed up so far. The initiator
may be in no container yet. -/
def applyChange (initiator : Option Handle) (removeInitiatorFirst : Bool)
    (acc : State × Int) (change : PermitChange) : State × Int :=
  let st := acc.1
  let h := change.handle
  let p := st.rep h
  let st := if initiator ≠ some h ∨ removeInitiatorFirst then st.removePermit h p.state else st
  let st := st.setPermit h (p.updated change)
  let st := st.addPermit h change.newState
  ({ st with wrapped := st.wrapped || change.underflow },
    acc.2 + (storeConcurrencies p.concurrency change.newConcurrencies).2)

/-- `apply` -/
def apply (st : State) (updates : List PermitChange) (initiator : Option Handle)
    (removeInitiatorFirst : Bool) : State :=
  let applied := updates.foldl (applyChange initiator removeInitiatorFirst) (st, 0)
  (applied.1.addAvailable applied.2).noteTcmStateChange

/-- Takes the resources of the lazily deactivated permit back. -/
def grabLazyInactive (st : State) : State :=
  match st.lazyInactivePermit with
  | none => st
  | some l =>
    let p := st.rep l
    let st := st.setPermit l { p with concurrency := p.concurrency.map fun _ => 0 }
    let st := (st.addAvailable p.grant).noteTcmStateChange
    { st with lazyInactivePermit := none }

/-- `adjust_existing_permit`: the changes that satisfy the request, or none. -/
def adjustExistingPermit (P : Platform) (st : State) (h : Handle) : State × List PermitChange :=
  let st := st.grabLazyInactive
  let (f, p) := st.trySatisfyRequest P h
  let st := st.setPermit h p
  if Word.signed f.numSatisfiable < p.adjustedMinSwThreads ∨ f.pendingConstraintsIndices ≠ [] then
    (st, [])
  else (st, st.negotiate P f h)

/-! ## Renegotiation -/

/-- The body of the loop of `renegotiate_permits` over the pending permits. -/
def activatePending (P : Platform) (st : State) (h : Handle) : State :=
  let (f, p) := st.trySatisfyRequest P h
  let st := st.setPermit h p
  if Word.ofInt p.adjustedMinSwThreads ≤ f.numSatisfiable ∧ f.pendingConstraintsIndices = [] then
    st.apply (st.negotiate P f h) none true
  else st

/-- The body of the loop of `renegotiate_permits` over the unsatisfied permits. -/
def saturateActive (P : Platform) (st : State) (h : Handle) : State :=
  let (f, p) := st.trySatisfyRequest P h
  let st := st.setPermit h p
  st.apply (st.negotiate P f h) none true

/-- The loop over the unsatisfied permits, in the order they come out of the queue. -/
def saturateActives (P : Platform) : State → List Handle → State
  | st, [] => st
  | st, h :: rest =>
    if st.hasUnusedResources then saturateActives P (st.saturateActive P h) rest else st

/-- `skip_permit_negotiation` -/
def skipPermitNegotiation (st : State) (initiator : Option Handle) (h : Handle) : Bool :=
  let p := st.rep h
  if initiator = some h then false
  else if !p.isNegotiable then true
  else !(p.state == .active || p.state == .pending)

/-- The active permits that have less than they want. -/
def unsatisfiedPermits (st : State) (initiator : Option Handle) : List Handle :=
  st.activePermits.filter fun h =>
    !st.skipPermitNegotiation initiator h && (st.rep h).unhappiness != 0

/-- `renegotiate_permits` -/
def renegotiatePermits (P : Platform) (st : State) (initiator : Option Handle) : State :=
  let st := st.pendingPermits.foldl (activatePending P) st
  if st.hasUnusedResources then
    saturateActives P st (P.priorityQueue.drain st.lessUnhappy (st.unsatisfiedPermits initiator))
  else st

end State

end OneTbb.Tcm
