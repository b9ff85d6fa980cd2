import OneTbb.Tcm.Satisfaction

/-!
# Thread composability manager: distribution and negotiation

`calculate_updates` distributes what a request asks for over the snapshots of its
constraints, first up to the required concurrency and then towards the desired
one. `negotiate` turns the distribution into changes of permits: one for each
stakeholder that has to give something up, and one for the requested permit.
-/

namespace OneTbb.Tcm

/-- `fulfillment_decision_t`: what one constraint is assigned, how much of it has to
be negotiated, and from whom. -/
structure FulfillmentDecision where
  toAssign : Nat := 0
  toNegotiate : Nat := 0
  idlePermits : List Stakeholder := []
  activePermits : List Stakeholder := []

/-- `fulfillment_t` -/
structure Fulfillment where
  numSatisfiable : Nat := 0
  numNegotiable : Nat := 0
  numNegotiableActive : Nat := 0
  pendingConstraintsIndices : List Nat := []
  decisions : List FulfillmentDecision := []
  toInheritIdx : Nat := 0

/-- What the loops of `calculate_updates` carry from constraint to constraint. -/
structure Distribution where
  leftToFind : Nat
  hasImplicitResource : Bool
  fulfillment : Fulfillment

namespace Distribution

/-- Records the decision on the next constraint. -/
def record (d : Distribution) (decision : FulfillmentDecision) : Distribution :=
  { d with fulfillment :=
    { d.fulfillment with decisions := d.fulfillment.decisions ++ [decision] } }

/-- Gives the inherited resource its place. -/
def inherit (d : Distribution) (i : Nat) : Distribution :=
  { d with
    hasImplicitResource := false
    fulfillment := { d.fulfillment with toInheritIdx := i } }

/-- Counts what was found for a constraint. -/
def found (d : Distribution) (newConcurrency : Nat) : Distribution :=
  { d with
    leftToFind := d.leftToFind - newConcurrency
    fulfillment := { d.fulfillment with
      numSatisfiable := Word.add d.fulfillment.numSatisfiable newConcurrency } }

/-- Counts what has to be negotiated for a constraint. -/
def negotiating (d : Distribution) (toNegotiate fromActive : Nat) : Distribution :=
  { d with fulfillment := { d.fulfillment with
      numNegotiable := Word.add d.fulfillment.numNegotiable toNegotiate
      numNegotiableActive := Word.add d.fulfillment.numNegotiableActive fromActive } }

/-- Leaves a constraint pending. -/
def leavePending (d : Distribution) (i : Nat) : Distribution :=
  { d with fulfillment := { d.fulfillment with
      pendingConstraintsIndices := d.fulfillment.pendingConstraintsIndices ++ [i] } }

-- The lemmas below are kept from unfolding (`(rfl)`): their instances hold large terms.
section

variable (d : Distribution) (i n m : Nat) (decision : FulfillmentDecision)

@[simp] theorem record_decisions :
    (d.record decision).fulfillment.decisions = d.fulfillment.decisions ++ [decision] := (rfl)

@[simp] theorem record_numSatisfiable :
    (d.record decision).fulfillment.numSatisfiable = d.fulfillment.numSatisfiable := (rfl)

@[simp] theorem record_pending :
    (d.record decision).fulfillment.pendingConstraintsIndices =
      d.fulfillment.pendingConstraintsIndices := (rfl)

@[simp] theorem found_decisions :
    (d.found n).fulfillment.decisions = d.fulfillment.decisions := (rfl)

@[simp] theorem found_numSatisfiable :
    (d.found n).fulfillment.numSatisfiable = Word.add d.fulfillment.numSatisfiable n := (rfl)

@[simp] theorem found_pending :
    (d.found n).fulfillment.pendingConstraintsIndices =
      d.fulfillment.pendingConstraintsIndices := (rfl)

@[simp] theorem negotiating_decisions :
    (d.negotiating n m).fulfillment.decisions = d.fulfillment.decisions := (rfl)

@[simp] theorem negotiating_numSatisfiable :
    (d.negotiating n m).fulfillment.numSatisfiable = d.fulfillment.numSatisfiable := (rfl)

@[simp] theorem negotiating_pending :
    (d.negotiating n m).fulfillment.pendingConstraintsIndices =
      d.fulfillment.pendingConstraintsIndices := (rfl)

end

/-- What a constraint is assigned of the required concurrency. -/
def requiredDecision (leftToFind : Nat) (cns : NegotiableSnapshot) : FulfillmentDecision :=
  let toFind := min leftToFind cns.adjustedMaxConcurrency
  let immediate := min cns.immediatelyAvailable toFind
  let toNegotiate := min cns.numNegotiable (toFind - immediate)
  { toAssign := immediate + toNegotiate
    toNegotiate
    idlePermits := cns.idlePermits
    activePermits := cns.activePermits }

/-- The required concurrency of one constraint. What it still lacks may be covered
by the inherited resource; otherwise the constraint is left pending. -/
def require (d : Distribution) (i : Nat) (cns : NegotiableSnapshot) : Distribution :=
  let decision := requiredDecision d.leftToFind cns
  let d := d.negotiating decision.toNegotiate
    (max 0 (Word.signed decision.toNegotiate - Word.signed cns.negotiableIdle)).toNat
  if cns.adjustedMinConcurrency ≤ decision.toAssign then
    (d.found decision.toAssign).record decision
  else if cns.adjustedMinConcurrency ≤ decision.toAssign + d.hasImplicitResource.toNat then
    ((d.inherit i).found decision.toAssign).record decision
  else (d.leavePending i).record { toNegotiate := decision.toNegotiate }

/-- The loop that distributes the required concurrency. It ends when everything is
found and the inherited resource has a place; the constraints not reached then are
assigned nothing. -/
def requireAll : Distribution → Nat → List NegotiableSnapshot → Distribution
  | d, _, [] => d
  | d, i, cns :: rest =>
    if d.leftToFind ≠ 0 ∨ d.hasImplicitResource then (d.require i cns).requireAll (i + 1) rest
    else (d.record {}).requireAll (i + 1) rest

/-- Whether a constraint can be given more without negotiating active permits. -/
def canGrow (decision : FulfillmentDecision) (cns : NegotiableSnapshot) : Bool :=
  let allocatedFromAvailable := Word.sub decision.toAssign decision.toNegotiate
  let isImmediateResourcesAvailable :=
    Word.sub cns.immediatelyAvailable allocatedFromAvailable != 0
  let isIdleResourcesAvailable := decide (decision.toNegotiate < cns.negotiableIdle)
  isImmediateResourcesAvailable || isIdleResourcesAvailable

/-- What a constraint is given beyond the required: from the available resources, and
from idle permits. -/
def growth (leftToFind : Nat) (decision : FulfillmentDecision) (cns : NegotiableSnapshot) :
    Nat × Nat :=
  let toFind := min leftToFind (Word.sub cns.adjustedMaxConcurrency cns.adjustedMinConcurrency)
  let available := (max 0 (Word.signed
    (Word.signed cns.immediatelyAvailable - Word.signed decision.toAssign))).toNat
  let immediate := min available toFind
  (immediate, min (toFind - immediate) (Word.sub cns.negotiableIdle decision.toNegotiate))

/-- The decision with what is given beyond the required. -/
def grownDecision (decision : FulfillmentDecision) (cns : NegotiableSnapshot)
    (growth : Nat × Nat) : FulfillmentDecision :=
  { toAssign := Word.add decision.toAssign (growth.1 + growth.2)
    toNegotiate := Word.add decision.toNegotiate growth.2
    idlePermits := cns.idlePermits
    activePermits := decision.activePermits }

@[simp] theorem grownDecision_idlePermits (decision : FulfillmentDecision)
    (cns : NegotiableSnapshot) (more : Nat × Nat) :
    (grownDecision decision cns more).idlePermits = cns.idlePermits := (rfl)

@[simp] theorem grownDecision_activePermits (decision : FulfillmentDecision)
    (cns : NegotiableSnapshot) (more : Nat × Nat) :
    (grownDecision decision cns more).activePermits = decision.activePermits := (rfl)

/-- What one constraint is assigned towards the desired concurrency. The inherited
resource is placed where there is room, if it has no place yet. -/
def saturate (d : Distribution) (i : Nat) (cns : NegotiableSnapshot)
    (decision : FulfillmentDecision) : Distribution :=
  let d := if d.hasImplicitResource ∧ decision.toAssign < cns.adjustedMaxConcurrency then
    d.inherit i else d
  if canGrow decision cns then
    let more := growth d.leftToFind decision cns
    ((d.negotiating more.2 0).found (more.1 + more.2)).record (grownDecision decision cns more)
  else d.record decision

/-- The loop that distributes towards the desired concurrency. -/
def saturateAll : Distribution → Nat → List (NegotiableSnapshot × FulfillmentDecision) →
    Distribution
  | d, _, [] => d
  | d, i, (cns, decision) :: rest =>
    if d.leftToFind ≠ 0 then (d.saturate i cns decision).saturateAll (i + 1) rest
    else (d.record decision).saturateAll (i + 1) rest

end Distribution

/-- `stakeholder_cache`, as far as `calculate_updates` reads it. -/
structure StakeholderCache where
  adjustedMinSwThreads : Nat
  adjustedMaxSwThreads : Nat
  stakeholders : List NegotiableSnapshot

/-- The distribution of the required concurrency starts from nothing. -/
def Distribution.start (leftToFind : Nat) (isNested : Bool) : Distribution where
  leftToFind := leftToFind
  hasImplicitResource := isNested
  fulfillment := {}

/-- The distribution towards the desired concurrency takes the decisions up again. -/
def Distribution.restart (d : Distribution) (leftToFind : Nat) : Distribution where
  leftToFind := leftToFind
  hasImplicitResource := d.hasImplicitResource
  fulfillment := { d.fulfillment with decisions := [] }

/-- `calculate_updates` -/
def calculateUpdates (isNested : Bool) (cache : StakeholderCache) : Fulfillment :=
  let required := (Distribution.start cache.adjustedMinSwThreads isNested).requireAll 0
    cache.stakeholders
  if required.leftToFind > 0 ∨ required.fulfillment.pendingConstraintsIndices ≠ [] then
    required.fulfillment
  else
    ((required.restart (Word.sub cache.adjustedMaxSwThreads cache.adjustedMinSwThreads)).saturateAll
      0 (cache.stakeholders.zip required.fulfillment.decisions)).fulfillment

/-! ## Negotiation -/

/-- `permit_change_t`. `underflow` records whether more was taken from an entry than
it had, or from an entry that is not there. -/
structure PermitChange where
  handle : Handle
  newState : PermitState
  newConcurrencies : List Nat
  inheritedConcurrencyIdx : Nat
  underflow : Bool

/-- The loop over the stakeholders in the order they come out of the queue: each
gives what it can, until enough is found. -/
def shares : Nat → List Stakeholder → List (Stakeholder × Nat)
  | _, [] => []
  | toNegotiate, s :: rest =>
    if toNegotiate = 0 then []
    else
      let currentNegotiation := min toNegotiate s.numNegotiable
      (s, currentNegotiation) :: shares (toNegotiate - currentNegotiation) rest

/-- The minimum that counts for a stakeholder. -/
def Permit.minimumFor (p : Permit) : Option Nat → Nat
  | none => Word.ofInt p.request.minSwThreads
  | some i => Word.ofInt (p.requiredConcurrency i)

/-- The vector `negotiate` copies the concurrency of a stakeholder to. It is initialised
with the list that consists of the permit's size, so it has one entry whatever the size. -/
def Permit.copiedConcurrency (p : Permit) : List Nat := p.concurrency.take 1

/-- The copy with resources taken from one entry. Writing to an entry it does not have is
modelled as writing nothing. -/
def Permit.reduced (p : Permit) (i n : Nat) : List Nat :=
  p.copiedConcurrency.modify i (Word.sub · n)

/-- A rigid permit, and one left with less than its minimum, is deactivated. -/
def Permit.shallDeactivate (p : Permit) (constraintIndex : Option Nat) (n : Nat) : Bool :=
  let i := constraintIndex.getD 0
  let actualGrant := Word.add ((p.reduced i n).getD i 0) p.inherited
  p.flags.rigidConcurrency || decide (actualGrant < p.minimumFor constraintIndex)

/-- The change that makes a stakeholder give up resources. -/
def State.negotiated (st : State) (share : Stakeholder × Nat) : PermitChange :=
  let p := st.rep share.1.handle
  let i := share.1.constraintIndex.getD 0
  let shallDeactivate := p.shallDeactivate share.1.constraintIndex share.2
  { handle := share.1.handle
    newState := if shallDeactivate then .inactive else p.state
    newConcurrencies := if shallDeactivate then (p.reduced i share.2).map fun _ => 0
      else p.reduced i share.2
    inheritedConcurrencyIdx := 0
    underflow := decide (p.copiedConcurrency.getD i 0 < share.2) }

/-- The changes one decision needs. The idle stakeholders give first; of each kind
those that can give the least come out of the queue first. -/
def State.decisionChanges (P : Platform) (st : State) (d : FulfillmentDecision) :
    List PermitChange :=
  let less := fun a b : Stakeholder => decide (b.numNegotiable < a.numNegotiable)
  let queue := P.priorityQueue.drain less d.idlePermits ++ P.priorityQueue.drain less d.activePermits
  (shares d.toNegotiate queue).map st.negotiated

/-- Merges two changes of one permit: the state is the first one's, each entry the
smaller of the two. -/
def PermitChange.merge (c other : PermitChange) : PermitChange :=
  { c with
    newConcurrencies := List.zipWith min c.newConcurrencies other.newConcurrencies
    underflow := c.underflow || other.underflow }

/-- The changes of one permit, merged into one. -/
def mergeGroup (P : Platform) (changes : List PermitChange) (h : Handle) : Option PermitChange :=
  match P.equalRange (changes.filter (·.handle = h)) with
  | [] => none
  | c :: rest => some (rest.foldl PermitChange.merge c)

/-- The changes, with those of each permit merged. -/
def mergeChanges (P : Platform) (changes : List PermitChange) : List PermitChange :=
  (changes.map PermitChange.handle).dedup.filterMap (mergeGroup P changes)

/-- `negotiate`: the stakeholders' changes, and last the one of the requested permit. -/
def State.negotiate (P : Platform) (st : State) (f : Fulfillment) (h : Handle) :
    List PermitChange :=
  mergeChanges P (f.decisions.flatMap (st.decisionChanges P)) ++
    [{ handle := h
       newState := .active
       newConcurrencies := f.decisions.map FulfillmentDecision.toAssign
       inheritedConcurrencyIdx := f.toInheritIdx
       underflow := false }]

/-! ## The request as a whole -/

/-- `gather_stakeholders`: the permits of a container other than the given one that
have something to give. -/
def State.gatherStakeholders (st : State) (h : Handle) (permits : List Handle)
    (s : NegotiableSnapshot) : NegotiableSnapshot :=
  permits.foldl (fun s k =>
    let p := st.rep k
    let negotiable := if p.state = .idle then p.grant else p.numNegotiable
    if k ≠ h ∧ p.isNegotiable ∧ 0 < negotiable then
      s.add { handle := k, constraintIndex := none, numNegotiable := negotiable } p.state
    else s) s

/-- The snapshot for a request without constraints. Active permits are stakeholders
only as long as the minimum is not reached. -/
def State.unconstrainedSnapshot (st : State) (h : Handle) : NegotiableSnapshot :=
  let p := st.rep h
  let currentConcurrency := p.concurrency.headD 0
  let s := st.gatherStakeholders h st.idlePermits
    { immediatelyAvailable := Word.add currentConcurrency st.availableConcurrency
      adjustedMinConcurrency := Word.ofInt p.request.minSwThreads
      adjustedMaxConcurrency := Word.ofInt p.request.maxSwThreads }
  if currentConcurrency < Word.ofInt p.request.minSwThreads then
    st.gatherStakeholders h st.activePermits s
  else s

/-- `infer_desired_resources_num` -/
def inferDesiredResourcesNum (P : Platform) (constraints : List CpuConstraints) : Int :=
  Word.signed (min (Word.sum (constraints.map fun c => Word.ofInt c.maxConcurrency))
    P.processConcurrency : Nat)

/-- The permit as the search for its constraints leaves it: the constraints with
their bounds inferred, the masks pinned down, and the desired concurrency inferred
once all masks are set. -/
def Permit.afterSearch (P : Platform) (p : Permit) (searches : List ConstraintSearch) : Permit :=
  let constraints := searches.map ConstraintSearch.constraint
  let cpuMask := searches.map ConstraintSearch.cpuMask
  let maxSwThreads :=
    if ∅ ∉ cpuMask ∧ p.request.maxSwThreads = automatic then
      inferDesiredResourcesNum P constraints
    else p.request.maxSwThreads
  { p with
    cpuMask
    request := { p.request with cpuConstraints := some constraints, maxSwThreads } }

/-- `try_satisfy_request`: how far the request of a permit can be fulfilled, and the
permit with the bounds found on the way. Without a known maximum nothing is
calculated. -/
def State.trySatisfyRequest (P : Platform) (st : State) (h : Handle) : Fulfillment × Permit :=
  let p := st.rep h
  let (p, stakeholders) :=
    match p.request.cpuConstraints, P.processMask with
    | some constraints, some processMask =>
      let searches := st.trySatisfyConstraints P h processMask constraints
      (p.afterSearch P searches, searches.map ConstraintSearch.snapshot)
    | _, _ =>
      (p, st.unconstrainedSnapshot h :: List.replicate (p.concurrency.length - 1) {})
  if 0 < p.request.maxSwThreads then
    (calculateUpdates p.isNested
      { adjustedMinSwThreads := p.adjustedMinSwThreads.toNat
        adjustedMaxSwThreads := p.adjustedMaxSwThreads.toNat
        stakeholders }, p)
  else ({}, p)

end OneTbb.Tcm
