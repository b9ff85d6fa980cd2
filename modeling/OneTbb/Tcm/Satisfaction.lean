import OneTbb.Tcm.Types

/-!
# Thread composability manager: the search for resources

For each constraint of a request the manager takes a snapshot of what it could
give: the resources immediately available and the stakeholders that could be
made to give some up. The snapshots are what a request is satisfied from.
-/

namespace OneTbb.Tcm

/-- A permit that could give up resources, with the entry of its concurrency array
the resources are in; no entry stands for the permit as a whole. -/
structure Stakeholder where
  handle : Handle
  constraintIndex : Option Nat
  numNegotiable : Nat
  deriving DecidableEq

/-- `negotiable_snapshot_t`. Its set of included permits is never filled, so no
stakeholder is ever found in it. -/
structure NegotiableSnapshot where
  immediatelyAvailable : Nat := 0
  negotiableIdle : Nat := 0
  negotiableActive : Nat := 0
  adjustedMinConcurrency : Nat := 0
  adjustedMaxConcurrency : Nat := 0
  idlePermits : List Stakeholder := []
  activePermits : List Stakeholder := []

namespace NegotiableSnapshot

def numNegotiable (s : NegotiableSnapshot) : Nat := Word.add s.negotiableIdle s.negotiableActive

def numAvailable (s : NegotiableSnapshot) : Nat :=
  Word.add s.immediatelyAvailable s.numNegotiable

def add (s : NegotiableSnapshot) (stakeholder : Stakeholder) (state : PermitState) :
    NegotiableSnapshot :=
  if state = .active then
    { s with
      negotiableActive := Word.add s.negotiableActive stakeholder.numNegotiable
      activePermits := s.activePermits ++ [stakeholder] }
  else
    { s with
      negotiableIdle := Word.add s.negotiableIdle stakeholder.numNegotiable
      idlePermits := s.idlePermits ++ [stakeholder] }

end NegotiableSnapshot

/-! ## Competitors for a mask -/

/-- One entry of the concurrency array of a permit that owns resources. -/
structure Competitor where
  stakeholder : Stakeholder
  cpuMask : CpuMask
  granted : Nat
  state : PermitState
  isNegotiable : Bool

/-- The minimum requested for one entry of the concurrency array. -/
def Permit.requiredConcurrency (p : Permit) (i : Nat) : Int :=
  match p.request.cpuConstraints with
  | some constraints => (constraints[i]?.map CpuConstraints.minConcurrency).getD 0
  | none => p.request.minSwThreads

/-- The entries of a permit. One without constraints counts for the whole process;
one that is not idle can give up what it has beyond the required. -/
def Permit.competitors (p : Permit) (h : Handle) (processMask : CpuMask) : List Competitor :=
  (List.range p.concurrency.length).map fun i =>
    let granted := p.concurrency.getD i 0
    { stakeholder :=
        { handle := h
          constraintIndex := if p.isConstrained then some i else none
          numNegotiable :=
            if p.state = .idle then granted
            else Word.ofInt (granted - p.requiredConcurrency i) }
      cpuMask := if p.isConstrained then p.cpuMask.getD i ∅ else processMask
      granted
      state := p.state
      isNegotiable := p.isNegotiable }

/-- What the loops of `try_satisfy` carry along. -/
structure MaskSearch where
  snapshot : NegotiableSnapshot
  commonMask : CpuMask
  commonConcurrency : Nat
  availableMin : Int
  separateMasks : List Competitor

namespace MaskSearch

/-- Unites the compound mask with a competitor's. -/
def unite (P : Platform) (currentConcurrency : Nat) (s : MaskSearch) (c : Competitor) :
    MaskSearch :=
  let commonMask := s.commonMask ∪ c.cpuMask
  let commonConcurrency := Word.add s.commonConcurrency c.granted
  let available := Word.signed
    (P.oversubscribed commonMask.card - commonConcurrency - currentConcurrency)
  { s with commonMask, commonConcurrency, availableMin := min s.availableMin available }

/-- The body of `find_resource_competitors` for one entry: first the mask alone,
then the compound of the masks met so far. -/
def visit (P : Platform) (currentConcurrency : Nat) (mask : CpuMask) (s : MaskSearch)
    (c : Competitor) : MaskSearch :=
  let intersects := !(mask ∩ c.cpuMask == ∅)
  let intersectsCommon := !(s.commonMask ∩ c.cpuMask == ∅)
  let s :=
    if intersects then
      let available := Word.signed
        (P.oversubscribed (mask ∪ c.cpuMask).card - c.granted - currentConcurrency)
      { s with availableMin := min s.availableMin available }
    else s
  let s :=
    if intersectsCommon then s.unite P currentConcurrency c
    else { s with separateMasks := s.separateMasks ++ [c] }
  if (intersects || intersectsCommon) && c.isNegotiable then
    { s with snapshot := s.snapshot.add c.stakeholder c.state }
  else s

/-- One round of `find_leftover_competitors` over the masks set apart: those that
meet the compound mask by now are united with it, the others are `kept` for the
next round, except for the last one in the queue. -/
def leftoverRound (P : Platform) (currentConcurrency : Nat) :
    List Competitor → List Competitor → Bool → MaskSearch → List Competitor × Bool × MaskSearch
  | [], kept, hasUnionApplied, s => (kept, hasUnionApplied, s)
  | c :: rest, kept, hasUnionApplied, s =>
    if s.commonMask ∩ c.cpuMask ≠ ∅ then
      let s := s.unite P currentConcurrency c
      let s := if c.isNegotiable then
        { s with snapshot := s.snapshot.add c.stakeholder c.state } else s
      leftoverRound P currentConcurrency rest kept true s
    else if rest.length + kept.length ≠ 0 then
      leftoverRound P currentConcurrency rest (kept ++ [c]) hasUnionApplied s
    else leftoverRound P currentConcurrency rest kept hasUnionApplied s

/-- `find_leftover_competitors`: rounds are made as long as they unite masks. Each
such round shortens the queue, whose length therefore bounds their number. -/
def findLeftoverCompetitors (P : Platform) (currentConcurrency : Nat) :
    Nat → List Competitor → MaskSearch → MaskSearch
  | 0, _, s => s
  | rounds + 1, queue, s =>
    match leftoverRound P currentConcurrency queue [] false s with
    | (kept, true, s) => findLeftoverCompetitors P currentConcurrency rounds kept s
    | (_, false, s) => s

end MaskSearch

/-- The competitors of a permit, in the order of the containers. -/
def State.competitors (st : State) (h : Handle) (processMask : CpuMask) : List Competitor :=
  ((st.idlePermits ++ st.activePermits).filter (· ≠ h)).flatMap fun k =>
    (st.rep k).competitors k processMask

/-- `try_satisfy`. The bounds it computes on what is needed beyond are not used by
the caller and left out. -/
def State.trySatisfy (P : Platform) (st : State) (h : Handle) (processMask : CpuMask)
    (constraintMin constraintMax currentConcurrency : Nat) (mask : CpuMask) :
    NegotiableSnapshot :=
  let start : MaskSearch :=
    { snapshot :=
        { adjustedMinConcurrency := constraintMin, adjustedMaxConcurrency := constraintMax }
      commonMask := mask
      commonConcurrency := 0
      availableMin := Word.signed
        (min st.availableConcurrency (Word.sub constraintMax currentConcurrency) : Nat)
      separateMasks := [] }
  let s := (st.competitors h processMask).foldl (MaskSearch.visit P currentConcurrency mask) start
  let s := s.findLeftoverCompetitors P currentConcurrency s.separateMasks.length s.separateMasks
  { s.snapshot with immediatelyAvailable := Word.ofInt (currentConcurrency + s.availableMin) }

/-- `infer_constraint_max_concurrency` -/
def inferConstraintMaxConcurrency (P : Platform) (maxConcurrency : Int) (mask : Option Bitmap) :
    Int :=
  if maxConcurrency ≠ automatic then maxConcurrency
  else
    match mask with
    | none => maxConcurrency
    | some mask =>
      let maskConcurrency := P.oversubscribed mask.weight
      if maskConcurrency < 0 then Word.signed P.processConcurrency else maskConcurrency

/-! ## Constraints given by the topology -/

/-- The NUMA node chosen so far for a constraint that accepts any. -/
structure NodeChoice where
  snapshot : NegotiableSnapshot := {}
  mask : CpuMask := ∅
  hasAssignedOnce : Bool := false
  isDesiredSatisfied : Bool := false

/-- Compares the choice so far with the snapshot taken for another node's mask. Of
the nodes that can give the desired the one with the least to give is chosen, if
that takes no more negotiation. -/
def NodeChoice.consider (choice : NodeChoice) (constraintMax : Nat) (mask : CpuMask)
    (s : NegotiableSnapshot) : NodeChoice :=
  if choice.isDesiredSatisfied ∧ constraintMax ≤ s.numAvailable then
    if constraintMax ≤ choice.snapshot.immediatelyAvailable ∧
        constraintMax ≤ s.immediatelyAvailable then
      if s.numAvailable < choice.snapshot.numAvailable then
        { choice with snapshot := s, mask }
      else choice
    else if choice.snapshot.immediatelyAvailable < s.immediatelyAvailable then
      { choice with snapshot := s, mask }
    else choice
  else if ¬ choice.hasAssignedOnce ∨ choice.snapshot.numAvailable < s.numAvailable then
    { snapshot := s
      mask
      hasAssignedOnce := true
      isDesiredSatisfied := constraintMax ≤ s.numAvailable }
  else choice

/-- The result of the search for one constraint: the snapshot, the constraint and
the permit's mask as the search leaves them, and the mask found for a constraint
given by the topology. -/
structure ConstraintSearch where
  snapshot : NegotiableSnapshot
  constraint : CpuConstraints
  cpuMask : CpuMask
  foundMask : Option CpuMask

/-- The body of the loop over the NUMA nodes. Nodes without a matching processing
unit are passed over. -/
def State.considerNode (P : Platform) (st : State) (h : Handle) (processMask : CpuMask)
    (c : CpuConstraints) (currentConcurrency : Nat) (choice : NodeChoice) (node : Int) :
    NodeChoice :=
  let mask := P.constraintsAffinityMask node c.coreTypeId c.threadsPerCore
  if mask = ∅ then choice
  else
    let constraintMax := Word.ofInt
      (inferConstraintMaxConcurrency P c.maxConcurrency (some (.finite mask)))
    choice.consider constraintMax mask
      (st.trySatisfy P h processMask (Word.ofInt c.minConcurrency) constraintMax
        currentConcurrency mask)

/-- `try_satisfy_high_level_constraints` -/
def State.trySatisfyHighLevelConstraints (P : Platform) (st : State) (h : Handle)
    (processMask : CpuMask) (c : CpuConstraints) (currentConcurrency : Nat) (cpuMask : CpuMask) :
    ConstraintSearch :=
  let constraintMin := Word.ofInt c.minConcurrency
  if c.numaId = anyNode then
    let choice := P.numaIndices.foldl (st.considerNode P h processMask c currentConcurrency) {}
    { snapshot := choice.snapshot
      constraint := c
      cpuMask
      foundMask := some (if constraintMin ≤ choice.snapshot.numAvailable then choice.mask else ∅) }
  else
    let mask := P.constraintsAffinityMask c.numaId c.coreTypeId c.threadsPerCore
    let maxConcurrency := inferConstraintMaxConcurrency P c.maxConcurrency (some (.finite mask))
    { snapshot := st.trySatisfy P h processMask constraintMin (Word.ofInt maxConcurrency)
        currentConcurrency mask
      constraint := if 0 < maxConcurrency then { c with maxConcurrency } else c
      cpuMask
      foundMask := some mask }

/-- The body of the loop of `try_satisfy_constraints`. -/
def State.trySatisfyConstraint (P : Platform) (st : State) (h : Handle) (processMask : CpuMask)
    (c : CpuConstraints) (currentConcurrency : Nat) (cpuMask : CpuMask) : ConstraintSearch :=
  if cpuMask ≠ ∅ ∨ c.mask.isSome then
    let cpuMask := if cpuMask ≠ ∅ then cpuMask else (c.mask.map (·.inter processMask)).getD ∅
    let maxConcurrency := inferConstraintMaxConcurrency P c.maxConcurrency (some (.finite cpuMask))
    { snapshot := st.trySatisfy P h processMask (Word.ofInt c.minConcurrency)
        (Word.ofInt maxConcurrency) currentConcurrency cpuMask
      constraint := { c with maxConcurrency }
      cpuMask
      foundMask := none }
  else st.trySatisfyHighLevelConstraints P h processMask c currentConcurrency cpuMask

/-- What the constraint searched for can be given. -/
def ConstraintSearch.ableToSatisfy (s : ConstraintSearch) : Nat :=
  let able := min (Word.ofInt s.constraint.maxConcurrency) s.snapshot.numAvailable
  if Word.ofInt s.constraint.minConcurrency ≤ able then able else 0

/-- Pins down the mask found for a constraint given by the topology. -/
def ConstraintSearch.pinMask (P : Platform) (s : ConstraintSearch) : ConstraintSearch :=
  match s.foundMask with
  | none => s
  | some mask =>
    { s with
      cpuMask := mask
      constraint := { s.constraint with
        maxConcurrency := inferConstraintMaxConcurrency P s.constraint.maxConcurrency
          (some (.finite mask)) } }

/-- `try_satisfy_constraints`: one search for each constraint, against the same
available resources and the same competitors. -/
def State.trySatisfyConstraints (P : Platform) (st : State) (h : Handle) (processMask : CpuMask)
    (constraints : List CpuConstraints) : List ConstraintSearch :=
  let p := st.rep h
  let searches := constraints.mapIdx fun i c =>
    st.trySatisfyConstraint P h processMask c (p.concurrency.getD i 0) (p.cpuMask.getD i ∅)
  let numSatisfiable := Word.sum (searches.map ConstraintSearch.ableToSatisfy)
  if Word.ofInt p.request.minSwThreads ≤ numSatisfiable then searches.map (·.pinMask P)
  else searches

end OneTbb.Tcm
