import OneTbb.Library.Word
import OneTbb.Library.Ledger
import OneTbb.Library.Selection
import Mathlib.Data.Finset.Card

/-!
# Thread composability manager: requests, permits and the manager's data

The manager hands out the CPU resources of a process to clients. A client asks
for a permit; the permit's grant is the resources the client may use. The state
below is `ThreadComposabilityManagerData` together with the permit
representations the handles point to.
-/

namespace OneTbb.Tcm

open Selection (PriorityQueue insertUpper)

/-- A permit handle: the address of a permit representation. -/
abbrev Handle := Nat

abbrev ClientId := Nat

/-- The CPU masks the manager computes: sets of processing units. -/
abbrev CpuMask := Finset Nat

/-- A CPU mask a client passes; such a bitmap may be infinitely set. -/
inductive Bitmap where
  | finite (cpus : CpuMask)
  | cofinite (missing : CpuMask)
  deriving DecidableEq

/-- `hwloc_bitmap_weight`: infinitely set bitmaps have weight `-1`. -/
def Bitmap.weight : Bitmap → Int
  | .finite cpus => cpus.card
  | .cofinite _ => -1

/-- `hwloc_bitmap_and` with a mask of the manager. -/
def Bitmap.inter : Bitmap → CpuMask → CpuMask
  | .finite cpus, mask => cpus ∩ mask
  | .cofinite missing, mask => mask \ missing

/-- `tcm_automatic`: the value is left to the manager. -/
def automatic : Int := -1

/-- `tcm_any`: any NUMA node will do. -/
def anyNode : Int := -2

/-- The states of a permit. The manager never stores the void state. -/
inductive PermitState where
  | inactive
  | pending
  | idle
  | active
  deriving DecidableEq, Repr

structure PermitFlags where
  rigidConcurrency : Bool
  requestAsInactive : Bool
  deriving DecidableEq, Repr

structure CpuConstraints where
  minConcurrency : Int
  maxConcurrency : Int
  mask : Option Bitmap
  numaId : Int
  coreTypeId : Int
  threadsPerCore : Int
  deriving DecidableEq

structure PermitRequest where
  minSwThreads : Int
  maxSwThreads : Int
  cpuConstraints : Option (List CpuConstraints)
  flags : PermitFlags
  deriving DecidableEq

/-- The representation of a permit: its latest request and its data. -/
structure Permit where
  clientId : ClientId
  request : PermitRequest
  concurrency : List Nat
  cpuMask : List CpuMask
  state : PermitState
  flags : PermitFlags
  tcmEpochSnapshot : Nat
  isNested : Bool
  inheritedConcurrencyIdx : Nat
  deriving DecidableEq

/-- What the manager runs on. `oversubscribed` is the product with the
oversubscription factor, cut to an integer. The priority queue and the order of
equal keys in a multimap are the standard library's. -/
structure Platform where
  processConcurrency : Nat
  processMask : Option CpuMask
  oversubscribed : Int → Int
  numaIndices : List Int
  constraintsAffinityMask : Int → Int → Int → CpuMask
  priorityQueue : PriorityQueue
  equalRange : {β : Type} → List β → List β
  equalRange_perm : ∀ {β : Type} (l : List β), (equalRange l).Perm l

/-- `platform_resources`: what is available at the start. -/
def Platform.platformResources (P : Platform) : Nat :=
  Word.ofInt (P.oversubscribed P.processConcurrency)

theorem Platform.platformResources_lt (P : Platform) : P.platformResources < 4294967296 :=
  Word.ofInt_lt _

namespace Permit

/-- `is_constrained` -/
def isConstrained (p : Permit) : Bool := p.request.cpuConstraints.isSome

/-- `participates_in_subscription_compute` -/
def participatesInSubscriptionCompute (p : Permit) : Bool :=
  !p.flags.rigidConcurrency || p.isConstrained

/-- `is_negotiable` -/
def isNegotiable (p : Permit) : Bool := !(p.state == .active && p.flags.rigidConcurrency)

/-- `get_permit_grant` -/
def grant (p : Permit) : Nat := Word.sum p.concurrency

/-- The resource a nested permit inherits from the outer one. -/
def inherited (p : Permit) : Nat := p.isNested.toNat

/-- `get_num_negotiable` -/
def numNegotiable (p : Permit) : Nat :=
  let requestedMinimum := Word.ofInt p.request.minSwThreads
  if requestedMinimum = 0 then p.grant
  else
    let actualNumResources := Word.add p.grant p.inherited
    if actualNumResources < requestedMinimum then 0
    else Word.sub actualNumResources requestedMinimum

/-- `permit_unhappiness` -/
def unhappiness (p : Permit) : Nat :=
  Word.sub (Word.ofInt p.request.maxSwThreads) (Word.add p.grant p.inherited)

/-- The requested minimum less the resource inherited. -/
def adjustedMinSwThreads (p : Permit) : Int := max 0 (p.request.minSwThreads - p.inherited)

/-- The requested maximum less the resource inherited. -/
def adjustedMaxSwThreads (p : Permit) : Int := max 0 (p.request.maxSwThreads - p.inherited)

/-- `determine_nested_permit`, for the permit registered last by the calling thread. -/
def determineNestedPermit (p : Permit) (h : Handle) : Option Handle → Permit
  | some top => if h ≠ top then { p with isNested := true } else p
  | none => { p with isNested := false }

end Permit

/-- The data of the manager and the permit representations, by handle. `wrapped`
records whether an addition to `availableConcurrency` or a subtraction from it or
from a permit's concurrency has left the range of the type. -/
structure State where
  availableConcurrency : Nat
  tcmStateEpoch : Nat
  rep : Handle → Permit
  allocated : List Handle
  pendingPermits : List Handle
  idlePermits : List Handle
  activePermits : List Handle
  lazyInactivePermit : Option Handle
  nextClientId : ClientId
  clients : List ClientId
  clientToPermit : List (ClientId × Handle)
  wrapped : Bool

namespace State

/-- Comparator `greater_idled_resources_t`. -/
def greaterIdledResources (st : State) (a b : Handle) : Bool :=
  if (st.rep a).grant ≠ (st.rep b).grant then (st.rep b).grant < (st.rep a).grant else b < a

/-- Comparator `greater_negotiable_t`. -/
def greaterNegotiable (st : State) (a b : Handle) : Bool :=
  if (st.rep a).numNegotiable ≠ (st.rep b).numNegotiable then
    (st.rep b).numNegotiable < (st.rep a).numNegotiable
  else b < a

/-- Comparator `less_min_request_t`. -/
def lessMinRequest (st : State) (a b : Handle) : Bool :=
  if (st.rep a).request.minSwThreads ≠ (st.rep b).request.minSwThreads then
    (st.rep a).request.minSwThreads < (st.rep b).request.minSwThreads
  else a < b

/-- Comparator `less_unhappy_t`. -/
def lessUnhappy (st : State) (a b : Handle) : Bool :=
  (st.rep a).unhappiness < (st.rep b).unhappiness

/-- Insertion into an ordered set. -/
def insertInto (less : Handle → Handle → Bool) (h : Handle) (set : List Handle) : List Handle :=
  if h ∈ set then set else insertUpper less h set

/-- Writes the representation of one permit. -/
def setPermit (st : State) (h : Handle) (p : Permit) : State :=
  { st with rep := Function.update st.rep h p }

/-- Adds to the available resources; the result is reduced to a word. -/
def addAvailable (st : State) (delta : Int) : State :=
  { st with
    availableConcurrency := Word.ofInt (st.availableConcurrency + delta)
    wrapped := st.wrapped ||
      decide (st.availableConcurrency + delta < 0 ∨ 4294967296 ≤ st.availableConcurrency + delta) }

/-- `note_tcm_state_change` -/
def noteTcmStateChange (st : State) : State :=
  { st with tcmStateEpoch := Word.add st.tcmStateEpoch 1 }

/-- Forgets the lazily deactivated permit if it is the given one. -/
def dropLazy (st : State) (h : Handle) : State :=
  if st.lazyInactivePermit = some h then { st with lazyInactivePermit := none } else st

/-- `remove_permit` -/
def removePermit (st : State) (h : Handle) : PermitState → State
  | .pending => { st with pendingPermits := st.pendingPermits.erase h }
  | .idle => { st with idlePermits := st.idlePermits.erase h }
  | .active =>
    if (st.rep h).participatesInSubscriptionCompute then
      { st with activePermits := st.activePermits.erase h }
    else st.dropLazy h
  | .inactive => st.dropLazy h

/-- `add_permit` -/
def addPermit (st : State) (h : Handle) : PermitState → State
  | .pending => { st with pendingPermits := insertInto st.lessMinRequest h st.pendingPermits }
  | .idle => { st with idlePermits := insertInto st.greaterIdledResources h st.idlePermits }
  | .active =>
    if (st.rep h).participatesInSubscriptionCompute then
      { st with activePermits := insertInto st.greaterNegotiable h st.activePermits }
    else st
  | .inactive => st

/-- `has_unused_resources` -/
def hasUnusedResources (st : State) : Bool :=
  st.availableConcurrency != 0 || !st.idlePermits.isEmpty

/-- `has_resource_demand` -/
def hasResourceDemand (st : State) : Bool :=
  !st.activePermits.isEmpty || !st.pendingPermits.isEmpty

end State

end OneTbb.Tcm
