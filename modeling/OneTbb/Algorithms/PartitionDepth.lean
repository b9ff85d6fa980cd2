import OneTbb.Algorithms.PartitionArcs
import OneTbb.Algorithms.WorkBalanceTiling

/-!
# The depth counters of the adaptive partitioners

A task of the auto or the affinity partitioner adjusts its depth when it was stolen, divides its
range while the partition is divisible, and balances the rest with a range pool. Which tasks are
stolen and which peers are stolen is up to the scheduler. The counters have eight bits.
-/

namespace OneTbb.Algorithms

variable {R α : Type*}

/-- The partitioners with `dynamic_grainsize_mode`. -/
inductive AdaptiveKind where
  | auto
  | affinity
  deriving DecidableEq, Repr

namespace AdaptiveKind

/-- `factor` -/
def factor : AdaptiveKind → Nat
  | .auto => 1
  | .affinity => LinearKind.affinity.factor

/-- What `work_balance` uses of the partition object. -/
def mode : AdaptiveKind → PartitionMode DynamicGrainsize
  | .auto => DynamicGrainsize.auto
  | .affinity => DynamicGrainsize.affinity

end AdaptiveKind

namespace DynamicGrainsize

/-- `__TBB_INIT_DEPTH`, and `factor_power + 1` of the affinity partitioner -/
def initDepth : Depth := 5

/-- `__TBB_INITIAL_CHUNKS` -/
def initialChunks : Nat := 2

/-- The partition object of the root. -/
def initial (kind : AdaptiveKind) (concurrency : Nat) : DynamicGrainsize :=
  let divisor := LinearAffinity.initialDivisor concurrency / 4 * kind.factor % 2 ^ 64
  match kind with
  | .auto => ⟨divisor * initialChunks % 2 ^ 64, .begin, initDepth⟩
  | .affinity => ⟨divisor, .begin, initDepth⟩

/-- `check_being_stolen`, where the argument says whether the task is stolen and runs
concurrently with the left task. -/
def checkBeingStolen (kind : AdaptiveKind) (p : DynamicGrainsize) (stolen : Bool) :
    DynamicGrainsize :=
  if p.divisor / kind.factor = 0 then
    if stolen then
      { p with
        divisor := 1
        maxDepth := (if p.maxDepth = 0 then p.maxDepth + 1 else p.maxDepth) + demandDepthAdd }
    else { p with divisor := 1 }
  else p

/-- `is_divisible`. For the auto partitioner it may lower the depth. -/
def isDivisible (kind : AdaptiveKind) (p : DynamicGrainsize) : Bool × DynamicGrainsize :=
  match kind with
  | .auto =>
    if 1 < p.divisor then (true, p)
    else if p.divisor ≠ 0 ∧ p.maxDepth ≠ 0 then
      (true, { p with divisor := 0, maxDepth := p.maxDepth - 1 })
    else (false, p)
  | .affinity => (decide (AdaptiveKind.affinity.factor < p.divisor), p)

/-- `get_split` -/
def getSplit (kind : AdaptiveKind) (p : DynamicGrainsize) : SplitObj :=
  match kind with
  | .auto => .split
  | .affinity => LinearAffinity.getSplit .affinity ⟨p.divisor, 0, 0⟩

/-- The constructor with the result of `get_split`: the object after it, and the new one. -/
def splitOff (kind : AdaptiveKind) (p : DynamicGrainsize) : DynamicGrainsize × DynamicGrainsize :=
  match kind with
  | .auto => p.split
  | .affinity =>
    let parts := LinearAffinity.split .affinity ⟨p.divisor, 0, 0⟩
    ({ p with divisor := parts.1.divisor }, ⟨parts.2.divisor, .begin, p.maxDepth⟩)

end DynamicGrainsize

/-- One round of the loop in `execute`: what is left of the task, and the task it offers. -/
def divide (kind : AdaptiveKind) (rg : Range R α) (r : R) (p : DynamicGrainsize) :
    Option ((R × DynamicGrainsize) × (R × DynamicGrainsize)) :=
  if rg.isDivisible r = true ∧ (p.isDivisible kind).1 = true then
    let p := (p.isDivisible kind).2
    let ranges := rg.split (p.getSplit kind) r
    let partitions := p.splitOff kind
    some ((ranges.1, partitions.1), (ranges.2, partitions.2))
  else none

/-- How far a task has come. -/
inductive TaskStage where
  | created
  | executing
  deriving DecidableEq, Repr

/-- The tasks of a loop over `range`, with their partition objects, under all answers of the
scheduler. -/
inductive TaskTree (kind : AdaptiveKind) (rg : Range R α) (range : R) (concurrency : Nat) :
    TaskStage → R → DynamicGrainsize → Prop
  | root : TaskTree kind rg range concurrency .created range (.initial kind concurrency)
  | start (stolen : Bool) {r p} (h : TaskTree kind rg range concurrency .created r p) :
      TaskTree kind rg range concurrency .executing r (p.checkBeingStolen kind stolen)
  | left {r p left right} (h : TaskTree kind rg range concurrency .executing r p)
      (hdivide : divide kind rg r p = some (left, right)) :
      TaskTree kind rg range concurrency .executing left.1 left.2
  | right {r p left right} (h : TaskTree kind rg range concurrency .executing r p)
      (hdivide : divide kind rg r p = some (left, right)) :
      TaskTree kind rg range concurrency .created right.1 right.2
  | offered {r p s child} (h : TaskTree kind rg range concurrency .executing r p)
      (hdivide : divide kind rg r p = none)
      (hrun : WorkBalance.State.Run rg kind.mode r p s) (hchild : child ∈ s.offered) :
      TaskTree kind rg range concurrency .created child.1 child.2

/-- No chain of nested splits of the range is longer than `n`. -/
def Range.DepthLe (rg : Range R α) : Nat → R → Prop
  | 0, r => rg.isDivisible r = false
  | n + 1, r => rg.isDivisible r = true → ∀ so,
      rg.DepthLe n (rg.split so r).1 ∧ rg.DepthLe n (rg.split so r).2

/-- The counters do not wrap in the next step of `work_balance`: a depth that is increased does not
become smaller, and the depth of an offered range is at most that of its task. -/
structure WorkBalance.State.NoWrap (rg : Range R α) (mode : PartitionMode DynamicGrainsize)
    (s : WorkBalance.State R DynamicGrainsize) : Prop where
  split : s.phase = .fill → s.pool.size < rangePoolSize →
    s.pool.isDivisible rg s.partition.maxDepth = true →
      s.pool.backDepth < s.pool.backDepth + 1
  demand : ∀ peerStolen, s.phase = .demand →
    s.partition.maxDepth ≤ (mode.checkForDemand s.partition peerStolen).2.maxDepth
  align : ∀ peerStolen, s.phase = .demand → 1 < s.pool.size →
    (mode.checkForDemand s.partition peerStolen).1 = true →
      s.pool.frontDepth ≤
        (mode.split (mode.checkForDemand s.partition peerStolen).2).2.maxDepth

end OneTbb.Algorithms
