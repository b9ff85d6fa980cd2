import OneTbb.Algorithms.Range
import OneTbb.Library.Transition

/-!
# Tasks and tree nodes of `parallel_reduce`

A running reduction is a tree. Its inner nodes are the `reduction_tree_node`s,
its leaves the `start_reduce` tasks and the finished parts. Offering work
replaces a running task by a node above that task and a new right child, so
the position of a task in the tree is its `my_parent`. Bodies live in memory
of their own because a right child may work on the body of its left sibling.

The decisions of a partitioner (whether to split before running, whether to
fill a range pool, the answers of `check_for_demand`) are choices of the step
relation: a step is allowed whenever the ranges allow it.
-/

namespace OneTbb.Reduce

open Algorithms

variable {R α B : Type*}

/-- The operations of a reduction body. -/
structure Body (B R : Type*) where
  /-- `operator()` -/
  call : B → R → B
  /-- `Body(Body&, split)` -/
  splitOff : B → B
  /-- `lhs.join(rhs)` -/
  join : B → B → B

/-- The documented contract: `join` is associative, a split-off body is an
identity for it, and `operator()` accumulates, that is, it joins what a fresh
body computes for the range. -/
structure Body.Lawful (body : Body B R) : Prop where
  join_assoc : ∀ a b c, body.join (body.join a b) c = body.join a (body.join b c)
  join_splitOff : ∀ a b, body.join a (body.splitOff b) = a
  splitOff_join : ∀ a b, body.join (body.splitOff b) a = a
  call_eq : ∀ a b r, body.call a r = body.join a (body.call (body.splitOff b) r)

/-- The address of a body. -/
abbrev BodyId := Nat

/-- The bodies, the next unused address and the arguments of every
`operator()` call made so far, the latest first. -/
structure Memory (B R : Type*) where
  bodies : BodyId → B
  next : BodyId
  calls : List R

/-- `start_reduce::run_body` -/
def Memory.runBody (body : Body B R) (m : Memory B R) (b : BodyId) (r : R) : Memory B R :=
  { m with
    bodies := Function.update m.bodies b (body.call (m.bodies b) r)
    calls := r :: m.calls }

/-- The splitting constructor run in the zombie space of a node. -/
def Memory.newZombie (body : Body B R) (m : Memory B R) (b : BodyId) : Memory B R :=
  { m with
    bodies := Function.update m.bodies m.next (body.splitOff (m.bodies b))
    next := m.next + 1 }

/-- The fields of `start_reduce` that survive until it runs. -/
structure StartReduce (R : Type*) where
  myRange : R
  myBody : BodyId
  isRightChild : Bool

/-- `reduction_tree_node`: the zombie is present when `has_right_zombie` is set. -/
structure ReductionTreeNode where
  refCount : Nat
  leftBody : BodyId
  rightZombie : Option BodyId

/-- `reduction_tree_node::join` in an uncancelled context. -/
def ReductionTreeNode.join (body : Body B R) (n : ReductionTreeNode) (m : Memory B R) :
    Memory B R :=
  match n.rightZombie with
  | none => m
  | some z =>
    { m with
      bodies := Function.update m.bodies n.leftBody
        (body.join (m.bodies n.leftBody) (m.bodies z)) }

/-- Where `start_reduce::execute` stands. -/
inductive Phase (R : Type*) where
  /-- spawned, not yet executed -/
  | spawned
  /-- in the split loop of `partition_type_base::execute` -/
  | splitting
  /-- in `work_balance`, with the range pool from `front()` to `back()` -/
  | balancing (pool : List R)

/-- The task tree under a node. -/
inductive Tree (R : Type*) where
  | task (t : StartReduce R) (phase : Phase R)
  /-- a thread in `fold_tree` about to decrement the reference count above -/
  | folding
  /-- the reference count above has been decremented -/
  | done
  | node (n : ReductionTreeNode) (left right : Tree R)

/-- `start_reduce::offer_work_impl`: the running task and the new right child
attach to a new node, and both refer to the same body. -/
def offerWork (t : StartReduce R) (phase : Phase R) (r : R) : Tree R :=
  .node ⟨2, t.myBody, none⟩
    (.task { t with isRightChild := false } phase)
    (.task ⟨r, t.myBody, true⟩ .spawned)

/-- The task after it has run `range_pool.back()` and popped it. -/
def afterBack (t : StartReduce R) : List R → Tree R
  | [] => .folding
  | r :: rest => .task t (.balancing (r :: rest))

/-- One step of one thread. -/
inductive Step (rg : Range R α) (body : Body B R) :
    Memory B R → Tree R → Memory B R → Tree R → Prop
  | start {m t} (h : t.isRightChild = false) :
      Step rg body m (.task t .spawned) m (.task t .splitting)
  | startSplit {m n l t} (hr : t.isRightChild = true) (h : n.refCount = 2) :
      Step rg body m (.node n l (.task t .spawned)) (m.newZombie body t.myBody)
        (.node { n with rightZombie := some m.next } l
          (.task { t with myBody := m.next } .splitting))
  | startInPlace {m n l t} (hr : t.isRightChild = true) (h : n.refCount ≠ 2) :
      Step rg body m (.node n l (.task t .spawned)) m (.node n l (.task t .splitting))
  | offerSplit {m t} (so : SplitObj) (h : rg.isDivisible t.myRange = true) :
      Step rg body m (.task t .splitting) m
        (offerWork { t with myRange := (rg.split so t.myRange).1 } .splitting
          (rg.split so t.myRange).2)
  | runRange {m t} :
      Step rg body m (.task t .splitting) (m.runBody body t.myBody t.myRange) .folding
  | makePool {m t} (h : rg.isDivisible t.myRange = true) :
      Step rg body m (.task t .splitting) m (.task t (.balancing [t.myRange]))
  | splitToFill {m t pool r} (hsize : pool.length + 1 < rangePoolSize)
      (h : rg.isDivisible r = true) :
      Step rg body m (.task t (.balancing (pool ++ [r]))) m
        (.task t (.balancing (pool ++ [(rg.split .split r).2, (rg.split .split r).1])))
  | offerFront {m t r pool} (h : pool ≠ []) :
      Step rg body m (.task t (.balancing (r :: pool))) m (offerWork t (.balancing pool) r)
  | runBack {m t pool r} :
      Step rg body m (.task t (.balancing (pool ++ [r])))
        (m.runBody body t.myBody r) (afterBack t pool)
  | releaseLeft {m n r} :
      Step rg body m (.node n .folding r) m
        (.node { n with refCount := n.refCount - 1 } .done r)
  | releaseRight {m n l} :
      Step rg body m (.node n l .folding) m
        (.node { n with refCount := n.refCount - 1 } l .done)
  | join {m n} (h : n.refCount = 0) :
      Step rg body m (.node n .done .done) (n.join body m) .folding
  | left {m n l r m' l'} (h : Step rg body m l m' l') :
      Step rg body m (.node n l r) m' (.node n l' r)
  | right {m n l r m' r'} (h : Step rg body m r m' r') :
      Step rg body m (.node n l r) m' (.node n l r')

/-- A reduction under its `wait_node`. -/
structure State (B R : Type*) where
  mem : Memory B R
  tree : Tree R
  waitRefCount : Nat

/-- The address of the user's body. -/
def userBody : BodyId := 0

/-- `start_reduce::run`: an empty range starts no task. -/
def run (rg : Range R α) (init : B) (range : R) : State B R :=
  let mem : Memory B R := ⟨fun _ => init, userBody + 1, []⟩
  if rg.empty range = true then ⟨mem, .done, 0⟩
  else ⟨mem, .task ⟨range, userBody, false⟩ .spawned, 1⟩

/-- A step of the whole reduction. The last one releases the `wait_node`. -/
inductive StateStep (rg : Range R α) (body : Body B R) : State B R → State B R → Prop
  | tree {m t m' t' w} (h : Step rg body m t m' t') :
      StateStep rg body ⟨m, t, w⟩ ⟨m', t', w⟩
  | release {m w} : StateStep rg body ⟨m, .folding, w⟩ ⟨m, .done, w - 1⟩

/-- `execute_and_wait` returns once the `wait_node` is released. -/
def State.Returned (s : State B R) : Prop := s.waitRefCount = 0

end OneTbb.Reduce
