import OneTbb.Tcm.Satisfaction

/-!
# Thread composability manager: requests

What `tcmRequestPermit` accepts, how a request is copied into a permit, and how
the manager fills in the values the client left to it.
-/

namespace OneTbb.Tcm

/-- `sum_constraints_bounds`: the sums of the constraints' bounds, or nothing if the
request is not sane. -/
def sumConstraintsBounds (maxSwThreads : Int) :
    List CpuConstraints → Int → Int → Option (Int × Int)
  | [], sumMin, sumMax => some (sumMin, sumMax)
  | c :: rest, sumMin, sumMax =>
    if c.minConcurrency ≠ automatic ∧
        (c.minConcurrency < 0 ∨ 2147483647 - sumMin < c.minConcurrency) then none
    else if c.maxConcurrency ≠ automatic ∧
        (c.maxConcurrency < 0 ∨ 2147483647 - sumMax < c.maxConcurrency) then none
    else if c.maxConcurrency = automatic ∧ c.mask = none ∧ c.numaId = automatic ∧
        c.coreTypeId = automatic ∧ c.threadsPerCore = automatic then none
    else
      let adjustedMin := if c.minConcurrency ≠ automatic then c.minConcurrency else 0
      let initializer := if maxSwThreads = automatic then 0 else maxSwThreads
      let maskConcurrency := (c.mask.map Bitmap.weight).getD 0
      let adjustedMax :=
        if c.maxConcurrency ≠ automatic then c.maxConcurrency
        else if 0 < maskConcurrency then maskConcurrency
        else initializer
      if adjustedMax < adjustedMin then none
      else sumConstraintsBounds maxSwThreads rest (Word.signed (sumMin + adjustedMin))
        (Word.signed (sumMax + adjustedMax))

/-- The checks of `tcmRequestPermit`: the sum of the constraints' minima of a request
that is passed on to the manager. -/
def acceptRequest (P : Platform) (req : PermitRequest) : Option Int :=
  let bounds :=
    match req.cpuConstraints with
    | none => some (0, req.maxSwThreads)
    | some [] => none
    | some constraints => sumConstraintsBounds req.maxSwThreads constraints 0 0
  match bounds with
  | none => none
  | some (sumMin, sumMax) =>
    if req.minSwThreads ≠ automatic ∧ req.minSwThreads < sumMin then none
    else if req.maxSwThreads ≠ automatic ∧ sumMax < req.maxSwThreads then none
    else if req.maxSwThreads ≠ automatic ∧ req.maxSwThreads < req.minSwThreads then none
    else if Word.signed P.platformResources < req.minSwThreads then none
    else some sumMin

/-- `infer_constraint_min_concurrency` -/
def inferConstraintMinConcurrency (minConcurrency : Int) : Int :=
  if minConcurrency = automatic then 0 else minConcurrency

/-- `deduce_request_arguments` -/
def deduceRequestArguments (P : Platform) (req : PermitRequest) (sumConstraintsMin : Int) :
    PermitRequest :=
  let constraints := req.cpuConstraints.map fun cs => cs.map fun c =>
    { c with
      minConcurrency := inferConstraintMinConcurrency c.minConcurrency
      maxConcurrency := inferConstraintMaxConcurrency P c.maxConcurrency c.mask }
  let hasAutomaticInConstraintsMaxConcurrency :=
    (constraints.getD []).any fun c => c.maxConcurrency = automatic
  { req with
    minSwThreads :=
      if req.minSwThreads = automatic then sumConstraintsMin else req.minSwThreads
    maxSwThreads :=
      if !hasAutomaticInConstraintsMaxConcurrency ∧ req.maxSwThreads = automatic then
        Word.signed P.processConcurrency
      else req.maxSwThreads
    cpuConstraints := constraints }

/-- The mask of a constraint of `copy_request`: the permit keeps its own bitmap, whose
contents are replaced if masks are to be copied. -/
def copiedMask (copyMasks : Bool) (own passed : Option Bitmap) : Option Bitmap :=
  if copyMasks ∧ passed.isSome then passed else own

/-- `copy_request` -/
def copyRequest (own passed : PermitRequest) (copyMasks : Bool) : PermitRequest :=
  { passed with
    cpuConstraints := own.cpuConstraints.map fun ownConstraints =>
      List.zipWith (fun o p : CpuConstraints => { p with mask := copiedMask copyMasks o.mask p.mask })
        ownConstraints (passed.cpuConstraints.getD []) }

/-- The number of entries of a permit for a request. -/
def PermitRequest.size (req : PermitRequest) : Nat :=
  match req.cpuConstraints with
  | none => 1
  | some constraints => constraints.length

/-- `make_new_permit` -/
def makeNewPermit (client : ClientId) (req : PermitRequest) : Permit :=
  { clientId := client
    request := req
    concurrency := List.replicate req.size 0
    cpuMask := if req.cpuConstraints.isSome then List.replicate req.size ∅ else []
    state := if req.flags.requestAsInactive then .inactive else .pending
    flags := req.flags
    tcmEpochSnapshot := 0
    isNested := false
    inheritedConcurrencyIdx := 0 }

/-- The integers of a request are 32-bit ones. -/
structure PermitRequest.IsWord (req : PermitRequest) : Prop where
  min_ge : -2147483648 ≤ req.minSwThreads
  min_lt : req.minSwThreads < 2147483648
  max_ge : -2147483648 ≤ req.maxSwThreads
  max_lt : req.maxSwThreads < 2147483648

end OneTbb.Tcm
