import OneTbb.Library.BinaryHeap

/-!
# The operations of `concurrent_priority_queue`

The aggregator hands a list of concurrent operations to `handle_operations`.
Operations are known by their addresses, of type `ι`. The vector `data` is
given by its cells and its size; a cell that has been moved from keeps its value
until it is overwritten. Whether the construction of a pushed element throws is
part of the operation.
-/

namespace OneTbb.PriorityQueue

open Function

variable {α ι : Type*}

/-- `cpq_operation`, without its address, its link and its status. -/
inductive Operation (α : Type*) where
  /-- `PUSH_OP` -/
  | push (elem : α) (throws : Bool)
  /-- `PUSH_RVALUE_OP` -/
  | pushRvalue (elem : α) (throws : Bool)
  /-- `POP_OP` -/
  | pop
  deriving DecidableEq, Repr

/-- `operation_status` -/
inductive Status where
  | wait
  | succeeded
  | failed
  deriving DecidableEq, Repr

/-- What the handler writes for an operation: its status, and the element that
a pop takes out. -/
structure Outcome (α : Type*) where
  status : Status
  elem : Option α
  deriving DecidableEq, Repr

/-- The state the handler works on. -/
structure Queue (α : Type*) where
  data : Nat → α
  dataSize : Nat
  mark : Nat
  /-- `my_size` -/
  size : Nat

/-- `data.back()` -/
def Queue.back (q : Queue α) : α := q.data (q.dataSize - 1)

/-- `data.push_back(value)` -/
def Queue.pushBack (q : Queue α) (value : α) : Queue α :=
  { q with data := update q.data q.dataSize value, dataSize := q.dataSize + 1 }

/-- `data.pop_back()` -/
def Queue.popBack (q : Queue α) : Queue α := { q with dataSize := q.dataSize - 1 }

/-- The loop of `heapify` that pushes `toPlace` up the heap, with the assignment
behind it. The loop is entered at a position other than the top. -/
def pushUp (comp : α → α → Bool) (toPlace : α) (data : Nat → α) (curPos : Nat) : Nat → α :=
  if h : curPos = 0 then update data curPos toPlace
  else
    let parent := (curPos - 1) / 2
    if comp (data parent) toPlace then
      pushUp comp toPlace (update data curPos (data parent)) parent
    else update data curPos toPlace
termination_by curPos
decreasing_by omega

/-- The loop of `heapify` over `count` elements behind `mark`. -/
def heapifyLoop (comp : α → α → Bool) : Nat → (Nat → α) → Nat → Nat → α
  | 0, data, _ => data
  | count + 1, data, mark =>
    heapifyLoop comp count (pushUp comp (data mark) data mark) (mark + 1)

/-- `heapify` -/
def Queue.heapify (comp : α → α → Bool) (q : Queue α) : Queue α :=
  let mark := if q.mark = 0 ∧ 0 < q.dataSize then 1 else q.mark
  { q with
    data := heapifyLoop comp (q.dataSize - mark) q.data mark
    mark := max mark q.dataSize }

/-- The child with the higher priority. -/
def higherChild (comp : α → α → Bool) (data : Nat → α) (mark child : Nat) : Nat :=
  if child + 1 < mark ∧ comp (data child) (data (child + 1)) = true then child + 1 else child

/-- The loop of `reheap`: the cells and the position it ends at. -/
def pushDown (comp : α → α → Bool) (mark last : Nat) (data : Nat → α) (curPos : Nat) :
    (Nat → α) × Nat :=
  let child := 2 * curPos + 1
  if _h : child < mark then
    let target := higherChild comp data mark child
    if comp (data target) (data last) then (data, curPos)
    else pushDown comp mark last (update data curPos (data target)) target
  else (data, curPos)
termination_by mark - curPos
decreasing_by
  simp only [higherChild]
  split <;> omega

/-- `reheap` -/
def Queue.reheap (comp : α → α → Bool) (q : Queue α) : Queue α :=
  let last := q.dataSize - 1
  let (data, curPos) := pushDown comp q.mark last q.data 0
  let data := if curPos ≠ last then update data curPos (data last) else data
  { q with
    data := data
    dataSize := last
    mark := if last < q.mark then last else q.mark }

/-- There are newly pushed elements and the last one is higher than the top. -/
def Queue.lastIsHigher (comp : α → α → Bool) (q : Queue α) : Bool :=
  decide (q.mark < q.dataSize) && comp (q.data 0) q.back

/-- The state of `handle_operations`: the queue, the postponed pops and what has
been written so far. -/
structure Handling (ι α : Type*) where
  queue : Queue α
  popList : List ι
  written : List (ι × Outcome α)

/-- The case of the first pass for a push. -/
def Handling.handlePush (h : Handling ι α) (op : ι) (elem : α) (throws : Bool) : Handling ι α :=
  if throws then { h with written := h.written ++ [(op, ⟨.failed, none⟩)] }
  else
    { h with
      queue := { h.queue.pushBack elem with size := h.queue.size + 1 }
      written := h.written ++ [(op, ⟨.succeeded, none⟩)] }

/-- Taking the last element of the vector for a pop. -/
def Handling.popLast (h : Handling ι α) (op : ι) : Handling ι α :=
  { h with
    queue := { h.queue.popBack with size := h.queue.size - 1 }
    written := h.written ++ [(op, ⟨.succeeded, some h.queue.back⟩)] }

/-- An operation in the first pass. -/
def Handling.firstPass (comp : α → α → Bool) (h : Handling ι α) :
    ι × Operation α → Handling ι α
  | (op, .pop) =>
    if h.queue.lastIsHigher comp then h.popLast op
    else { h with popList := op :: h.popList }
  | (op, .push elem throws) => h.handlePush op elem throws
  | (op, .pushRvalue elem throws) => h.handlePush op elem throws

/-- A postponed pop in the second pass. -/
def Handling.secondPass (comp : α → α → Bool) (h : Handling ι α) (op : ι) : Handling ι α :=
  if h.queue.dataSize = 0 then { h with written := h.written ++ [(op, ⟨.failed, none⟩)] }
  else if h.queue.lastIsHigher comp then h.popLast op
  else
    { h with
      queue := { h.queue.reheap comp with size := h.queue.size - 1 }
      written := h.written ++ [(op, ⟨.succeeded, some (h.queue.data 0)⟩)] }

/-- `handle_operations`: the queue it leaves and what it writes for the operations. -/
def handleOperations (comp : α → α → Bool) (q : Queue α) (opList : List (ι × Operation α)) :
    Queue α × List (ι × Outcome α) :=
  let h := opList.foldl (Handling.firstPass comp) ⟨q, [], []⟩
  let h := h.popList.foldl (Handling.secondPass comp) h
  (if h.queue.mark < h.queue.dataSize then h.queue.heapify comp else h.queue, h.written)

/-! ## The abstract priority queue -/

/-- An operation on an abstract priority queue, a multiset of elements. A push
that throws has no effect, and a pop takes an element that no other one is
higher than. -/
inductive Performs (comp : α → α → Bool) :
    Multiset α → Operation α → Outcome α → Multiset α → Prop
  | push (s : Multiset α) (elem : α) :
      Performs comp s (.push elem false) ⟨.succeeded, none⟩ (elem ::ₘ s)
  | pushThrows (s : Multiset α) (elem : α) : Performs comp s (.push elem true) ⟨.failed, none⟩ s
  | pushRvalue (s : Multiset α) (elem : α) :
      Performs comp s (.pushRvalue elem false) ⟨.succeeded, none⟩ (elem ::ₘ s)
  | pushRvalueThrows (s : Multiset α) (elem : α) :
      Performs comp s (.pushRvalue elem true) ⟨.failed, none⟩ s
  | pop (s : Multiset α) (elem : α) (h : ∀ x ∈ elem ::ₘ s, comp elem x = false) :
      Performs comp (elem ::ₘ s) .pop ⟨.succeeded, some elem⟩ s
  | popEmpty : Performs comp 0 .pop ⟨.failed, none⟩ 0

/-- Operations with their outcomes, one after the other. -/
inductive Sequential (comp : α → α → Bool) :
    Multiset α → List (ι × Operation α × Outcome α) → Multiset α → Prop
  | nil (s : Multiset α) : Sequential comp s [] s
  | cons {s t u : Multiset α} {op : ι} {operation : Operation α} {outcome : Outcome α}
      {rest : List (ι × Operation α × Outcome α)} (h : Performs comp s operation outcome t)
      (hrest : Sequential comp t rest u) : Sequential comp s ((op, operation, outcome) :: rest) u

end OneTbb.PriorityQueue
