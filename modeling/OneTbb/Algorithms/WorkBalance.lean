import OneTbb.Algorithms.Range
import OneTbb.Library.RingDeque
import OneTbb.Library.Transition

/-!
# Work balancing with a range pool

A task of an adaptive partitioner keeps the pieces of its range in a small ring. It splits the
piece at the back in place, runs pieces from the back, and gives the piece at the front to a new
task when there is demand. The partitioner answers whether there is demand and may change its
depth limit with the answer.
-/

namespace OneTbb.Algorithms

open Function

variable {R α P : Type*}

/-- `depth_t` -/
abbrev Depth := UInt8

/-- `range_vector`. A slot of the pool is empty while no range is alive in it. -/
structure RangeVector (R : Type*) where
  head : Nat
  tail : Nat
  size : Nat
  depth : Nat → Depth
  pool : Nat → Option R

namespace RangeVector

/-- A range is constructed in a slot where none is alive. -/
def construct (pool : Nat → Option R) (i : Nat) (r : R) : Option (Nat → Option R) :=
  match pool i with
  | none => some (update pool i (some r))
  | some _ => none

/-- Only a range that is alive is destroyed. -/
def destroy (pool : Nat → Option R) (i : Nat) : Option (Nat → Option R) :=
  match pool i with
  | none => none
  | some _ => some (update pool i none)

def new (elem : R) : RangeVector R where
  head := 0
  tail := 0
  size := 1
  depth := fun _ => 0
  pool := update (fun _ => none) 0 (some elem)

def back (v : RangeVector R) : Option R := v.pool v.head

def front (v : RangeVector R) : Option R := v.pool v.tail

def backDepth (v : RangeVector R) : Depth := v.depth v.head

def frontDepth (v : RangeVector R) : Depth := v.depth v.tail

def isDivisible (rg : Range R α) (v : RangeVector R) (maxDepth : Depth) : Bool :=
  decide (v.backDepth < maxDepth) && v.back.any rg.isDivisible

/-- The body of the loop in `split_to_fill`. The range at the back is copied to the next slot, and
what is split off the copy takes its old slot. -/
def splitBack (rg : Range R α) (maxCapacity : Nat) (v : RangeVector R) :
    Option (RangeVector R) := do
  let prev := v.head
  let head := (v.head + 1) % maxCapacity
  let r ← v.pool prev
  let copied ← construct v.pool head r
  let destroyed ← destroy copied prev
  -- the splitting constructor shortens the range it is given
  let pool ← construct (update destroyed head (some (rg.split .split r).1)) prev
    (rg.split .split r).2
  let depth := v.depth prev + 1
  return { v with
    head, pool
    depth := update (update v.depth prev depth) head depth
    size := v.size + 1 }

def popBack (maxCapacity : Nat) (v : RangeVector R) : Option (RangeVector R) := do
  let pool ← destroy v.pool v.head
  return { v with pool, size := v.size - 1, head := (v.head + maxCapacity - 1) % maxCapacity }

def popFront (maxCapacity : Nat) (v : RangeVector R) : Option (RangeVector R) := do
  let pool ← destroy v.pool v.tail
  return { v with pool, size := v.size - 1, tail := (v.tail + 1) % maxCapacity }

end RangeVector

/-- What `work_balance` uses of a partition object. -/
structure PartitionMode (P : Type*) where
  maxDepth : P → Depth
  /-- `check_for_demand`, where the argument is the answer of `is_peer_stolen`. -/
  checkForDemand : P → Bool → Bool × P
  /-- The splitting constructor: the object after it, and the new one. -/
  split : P → P × P
  alignDepth : P → Depth → P

inductive Delay where
  | begin
  | run
  | pass
  deriving DecidableEq, Repr

/-- `dynamic_grainsize_mode` -/
structure DynamicGrainsize where
  divisor : Nat
  delay : Delay
  maxDepth : Depth
  deriving DecidableEq

namespace DynamicGrainsize

/-- `__TBB_DEMAND_DEPTH_ADD` -/
def demandDepthAdd : Depth := 1

/-- `adaptive_mode::do_split` halves the divisor of the object that is split. -/
def split (p : DynamicGrainsize) : DynamicGrainsize × DynamicGrainsize :=
  ({ p with divisor := p.divisor / 2 }, ⟨p.divisor / 2, .pass, p.maxDepth⟩)

def alignDepth (p : DynamicGrainsize) (base : Depth) : DynamicGrainsize :=
  { p with maxDepth := p.maxDepth - base }

/-- `dynamic_grainsize_mode::check_for_demand` -/
def checkForDemand (p : DynamicGrainsize) (peerStolen : Bool) : Bool × DynamicGrainsize :=
  match p.delay with
  | .pass =>
    if 1 < p.divisor then (true, p)
    else if p.divisor ≠ 0 ∧ p.maxDepth ≠ 0 then (true, { p with divisor := 0 })
    else if peerStolen then (true, { p with maxDepth := p.maxDepth + demandDepthAdd })
    else (false, p)
  | .begin => (false, { p with delay := .pass })
  | .run => (false, p)

/-- `auto_partition_type::check_for_demand` -/
def autoCheckForDemand (p : DynamicGrainsize) (peerStolen : Bool) : Bool × DynamicGrainsize :=
  if peerStolen then (true, { p with maxDepth := p.maxDepth + demandDepthAdd }) else (false, p)

/-- `affinity_partition_type` -/
def affinity : PartitionMode DynamicGrainsize where
  maxDepth := DynamicGrainsize.maxDepth
  checkForDemand := checkForDemand
  split := split
  alignDepth := alignDepth

/-- `auto_partition_type` -/
def auto : PartitionMode DynamicGrainsize where
  maxDepth := DynamicGrainsize.maxDepth
  checkForDemand := autoCheckForDemand
  split := split
  alignDepth := alignDepth

end DynamicGrainsize

namespace WorkBalance

inductive Phase where
  /-- in `split_to_fill` -/
  | fill
  /-- before `check_for_demand` -/
  | demand
  | finished
  deriving DecidableEq, Repr

/-- The range pool and the partition object, the ranges given to `run_body`, the first one first,
and the ranges given to `offer_work` with the partition of the new task, the last one first. -/
structure State (R P : Type*) where
  pool : RangeVector R
  partition : P
  ran : List R
  offered : List (R × P)
  phase : Phase

namespace State

/-- No range is in a pool when the range is run as a whole. The indices are those of a pool whose
only range is popped from the back. -/
def noPool : RangeVector R where
  head := rangePoolSize - 1
  tail := 0
  size := 0
  depth := fun _ => 0
  pool := fun _ => none

/-- The first branch of `work_balance`, and the construction of the pool in the second. -/
def start (rg : Range R α) (mode : PartitionMode P) (range : R) (p : P) : State R P :=
  if rg.isDivisible range = false ∨ mode.maxDepth p = 0 then
    { pool := noPool, partition := p, ran := [range], offered := [], phase := .finished }
  else
    { pool := .new range, partition := p, ran := [], offered := [], phase := .fill }

/-- The condition of the loop, in a context that is not cancelled. -/
def loop (s : State R P) : State R P :=
  { s with phase := if s.pool.size = 0 then .finished else .fill }

/-- `run_body` on the back of the pool. -/
def runBack (s : State R P) : Option (State R P) :=
  match s.pool.back, s.pool.popBack rangePoolSize with
  | some r, some pool => some (loop { s with pool, ran := s.ran ++ [r] })
  | _, _ => none

/-- `offer_work` on the front of the pool. The partition of the new task is split off. -/
def offerFront (mode : PartitionMode P) (s : State R P) : Option (State R P) :=
  let (partition, child) := mode.split s.partition
  let aligned := mode.alignDepth child s.pool.frontDepth
  match s.pool.front, s.pool.popFront rangePoolSize with
  | some r, some pool =>
    some (loop { s with pool, partition, offered := (r, aligned) :: s.offered })
  | _, _ => none

/-- One split of `split_to_fill`, or one pass through the rest of the loop body. -/
def step (rg : Range R α) (mode : PartitionMode P) (s : State R P) (peerStolen : Bool) :
    Option (State R P) :=
  match s.phase with
  | .fill =>
    if s.pool.size < rangePoolSize ∧
        s.pool.isDivisible rg (mode.maxDepth s.partition) = true then
      (s.pool.splitBack rg rangePoolSize).map fun pool => { s with pool }
    else some { s with phase := .demand }
  | .demand =>
    let (demand, partition) := mode.checkForDemand s.partition peerStolen
    if demand = true then
      if 1 < s.pool.size then { s with partition }.offerFront mode
      else if s.pool.isDivisible rg (mode.maxDepth partition) = true then
        some { s with partition }.loop
      else { s with partition }.runBack
    else { s with partition }.runBack
  | .finished => none

/-- The states of `work_balance` under any answers of the scheduler. -/
def Run (rg : Range R α) (mode : PartitionMode P) (range : R) (p : P) (s : State R P) : Prop :=
  Relation.ReflTransGen (fun s s' => ∃ peerStolen, s.step rg mode peerStolen = some s')
    (start rg mode range p) s

/-- The ranges in the pool from the tail to the head. -/
def pooled (s : State R P) : List R :=
  (List.range s.pool.size).filterMap fun i => s.pool.pool ((s.pool.tail + i) % rangePoolSize)

/-- The ranges run so far, those in the pool from back to front, and those offered in reverse
order. -/
def pieces (s : State R P) : List R := s.ran ++ s.pooled.reverse ++ s.offered.map Prod.fst

end State

end WorkBalance

end OneTbb.Algorithms
