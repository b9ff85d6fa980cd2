import Mathlib.Algebra.Order.Ring.Nat
import OneTbb.Reduce.Model

/-!
# Tasks and tree nodes of `parallel_deterministic_reduce`

A task splits its range as long as the partitioner allows it, and only then runs its body. Every
split makes a tree node with a new body for the right child. The last of the two children to
finish joins the new body into the left one. Where a task runs, and when, is left open.
-/

namespace OneTbb.Reduce.Deterministic

open Algorithms

variable {R α B V : Type*}

/-- The operations of a reduction body. The splitting constructor takes its source by reference,
so it gives the source after the split and the new body. -/
structure SplittingBody (B R : Type*) where
  call : B → R → B
  splitOff : B → B × B
  join : B → B → B

/-- `lambda_reduce_body` -/
def lambdaReduceBody (identityElement : V) (realBody : R → V → V) (reduction : V → V → V) :
    SplittingBody V R where
  call value range := realBody range value
  splitOff value := (value, identityElement)
  join value rhs := reduction value rhs

inductive Partitioner where
  | simplePartitioner
  | staticPartitioner
  deriving DecidableEq, Repr

/-- `simple_partition_type`, or `static_partition_type` with its divisor. -/
inductive Partition where
  | simple
  | static (divisor : Nat)
  deriving DecidableEq, Repr

/-- `adaptive_mode::factor` -/
def factor : Nat := 1

/-- `get_initial_auto_partitioner_divisor` -/
def initialAutoPartitionerDivisor (maxConcurrency : Nat) : Nat := 4 * maxConcurrency

/-- The partition object of the root task. -/
def Partitioner.root (maxConcurrency : Nat) : Partitioner → Partition
  | .simplePartitioner => .simple
  | .staticPartitioner => .static (initialAutoPartitionerDivisor maxConcurrency / 4 * factor)

namespace Partition

/-- The loop of `simple_partition_type` asks only the range. -/
def isDivisible : Partition → Bool
  | .simple => true
  | .static divisor => decide (factor < divisor)

/-- `proportional_mode::get_split` -/
def getSplit : Partition → SplitObj
  | .simple => .split
  | .static divisor =>
    let n := divisor / factor
    let right := n / 2
    .proportionalSplit (n - right) right

/-- The splitting constructor: the object after it, and the new one. For the static partitioner
this is `proportional_mode::do_split`. -/
def split : SplitObj → Partition → Partition × Partition
  | _, .simple => (.simple, .simple)
  | .split, .static divisor => (.static (divisor / 2), .static (divisor / 2))
  | .proportionalSplit _ right, .static divisor =>
    let portion := (right * factor + factor / 2) &&& (2 ^ 64 - factor)
    (.static (divisor - portion), .static portion)

end Partition

/-- The bodies and the next unused address. -/
structure Memory (B : Type*) where
  bodies : BodyId → B
  next : BodyId

namespace Memory

/-- `start_deterministic_reduce::run_body` -/
def runBody (body : SplittingBody B R) (m : Memory B) (b : BodyId) (r : R) : Memory B :=
  { m with bodies := Function.update m.bodies b (body.call (m.bodies b) r) }

/-- The constructor of a tree node splits the left body. -/
def splitBody (body : SplittingBody B R) (m : Memory B) (b : BodyId) : Memory B where
  bodies := Function.update (Function.update m.bodies b (body.splitOff (m.bodies b)).1) m.next
    (body.splitOff (m.bodies b)).2
  next := m.next + 1

end Memory

/-- `start_deterministic_reduce` -/
structure Task (R : Type*) where
  range : R
  partition : Partition
  body : BodyId

namespace Task

/-- The condition of the loop in `execute`. -/
def divides (rg : Range R α) (r : R) (p : Partition) : Bool := rg.isDivisible r && p.isDivisible

/-- The task after it has offered work, as the left child. -/
def leftChild (rg : Range R α) (t : Task R) : Task R where
  range := (rg.split t.partition.getSplit t.range).1
  partition := (t.partition.split t.partition.getSplit).1
  body := t.body

/-- The splitting constructor of the task. -/
def rightChild (rg : Range R α) (t : Task R) (body : BodyId) : Task R where
  range := (rg.split t.partition.getSplit t.range).2
  partition := (t.partition.split t.partition.getSplit).2
  body := body

end Task

/-- `deterministic_reduction_tree_node` -/
structure TreeNode where
  refCount : Nat
  leftBody : BodyId
  rightBody : BodyId

/-- `deterministic_reduction_tree_node::join` in an uncancelled context. -/
def TreeNode.join (body : SplittingBody B R) (n : TreeNode) (m : Memory B) : Memory B :=
  { m with
    bodies := Function.update m.bodies n.leftBody
      (body.join (m.bodies n.leftBody) (m.bodies n.rightBody)) }

/-- Where a task stands: spawned, or in the loop of `execute`. -/
inductive Phase where
  | spawned
  | executing
  deriving DecidableEq, Repr

/-- The tasks and nodes under a node. -/
inductive Tree (R : Type*) where
  | task (t : Task R) (phase : Phase)
  /-- a thread in `fold_tree` about to decrement the reference count above -/
  | folding
  /-- the reference count above has been decremented -/
  | done
  | node (n : TreeNode) (left right : Tree R)

/-- One step of one thread. -/
inductive Step (rg : Range R α) (body : SplittingBody B R) :
    Memory B → Tree R → Memory B → Tree R → Prop
  | start {m t} : Step rg body m (.task t .spawned) m (.task t .executing)
  | offerWork {m t} (h : Task.divides rg t.range t.partition = true) :
      Step rg body m (.task t .executing) (m.splitBody body t.body)
        (.node ⟨2, t.body, m.next⟩ (.task (t.leftChild rg) .executing)
          (.task (t.rightChild rg m.next) .spawned))
  | runBody {m t} (h : Task.divides rg t.range t.partition = false) :
      Step rg body m (.task t .executing) (m.runBody body t.body t.range) .folding
  | releaseLeft {m n r} :
      Step rg body m (.node n .folding r) m (.node { n with refCount := n.refCount - 1 } .done r)
  | releaseRight {m n l} :
      Step rg body m (.node n l .folding) m (.node { n with refCount := n.refCount - 1 } l .done)
  | join {m n} (h : n.refCount = 0) :
      Step rg body m (.node n .done .done) (n.join body m) .folding
  | left {m n l r m' l'} (h : Step rg body m l m' l') :
      Step rg body m (.node n l r) m' (.node n l' r)
  | right {m n l r m' r'} (h : Step rg body m r m' r') :
      Step rg body m (.node n l r) m' (.node n l r')

/-- A reduction under its `wait_node`. -/
structure State (B R : Type*) where
  mem : Memory B
  tree : Tree R
  waitRefCount : Nat

/-- `start_deterministic_reduce::run`: an empty range starts no task. -/
def run (rg : Range R α) (init : B) (range : R) (p : Partition) : State B R :=
  let mem : Memory B := ⟨fun _ => init, userBody + 1⟩
  if rg.empty range = true then ⟨mem, .done, 0⟩
  else ⟨mem, .task ⟨range, p, userBody⟩ .spawned, 1⟩

/-- A step of the whole reduction. The last one releases the `wait_node`. -/
inductive StateStep (rg : Range R α) (body : SplittingBody B R) : State B R → State B R → Prop
  | tree {m t m' t' w} (h : Step rg body m t m' t') : StateStep rg body ⟨m, t, w⟩ ⟨m', t', w⟩
  | release {m w} : StateStep rg body ⟨m, .folding, w⟩ ⟨m, .done, w - 1⟩

/-- The states of `parallel_deterministic_reduce` under any schedule. -/
def Run (rg : Range R α) (partitioner : Partitioner) (maxConcurrency : Nat)
    (body : SplittingBody B R) (init : B) (range : R) (s : State B R) : Prop :=
  Relation.ReflTransGen (StateStep rg body) (run rg init range (partitioner.root maxConcurrency)) s

def State.Returned (s : State B R) : Prop := s.waitRefCount = 0

/-- What the operations on bodies have made of the user's body. -/
inductive Term (R : Type*) where
  | initial
  | call (term : Term R) (r : R)
  /-- the source of a split, and the body split off it -/
  | splitSource (term : Term R)
  | splitOff (term : Term R)
  | join (left right : Term R)
  deriving DecidableEq, Repr

def Term.interp (body : SplittingBody B R) (init : B) : Term R → B
  | .initial => init
  | .call term r => body.call (term.interp body init) r
  | .splitSource term => (body.splitOff (term.interp body init)).1
  | .splitOff term => (body.splitOff (term.interp body init)).2
  | .join left right => body.join (left.interp body init) (right.interp body init)

end OneTbb.Reduce.Deterministic
