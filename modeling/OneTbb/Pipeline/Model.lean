import Mathlib.Algebra.Order.Ring.Nat

/-!
# Stage tasks and input buffers of `parallel_pipeline`

Filters are numbered along the chain and items in the order in which the first
filter produced them. A stage task is given by the point it has reached in
`execute_filter`; a task that carries an object carries its `task_info`, in
which the object is known by the number of its item. Between two points a task
makes at most one access to shared data, so that the tasks of a state may
interleave in every way. What the first filter returns is a choice of the step
relation. The pipeline is not cancelled.
-/

namespace OneTbb.Pipeline

open Function

/-- The modes of a filter. -/
inductive Mode where
  | parallel
  | serialInOrder
  | serialOutOfOrder
  deriving DecidableEq, Repr

/-- The chain of filters, the width of `Token` and the argument `max_token`. -/
structure Chain where
  filters : List Mode
  filters_ne_nil : filters ≠ []
  tokenBits : Nat
  /-- `unsigned long` has at least 32 bits -/
  tokenBits_ge : 32 ≤ tokenBits
  maxToken : Nat

def Chain.length (c : Chain) : Nat := c.filters.length

/-- `is_serial` -/
def Chain.isSerial (c : Chain) (f : Nat) : Bool :=
  decide (c.filters.getD f .parallel ≠ .parallel)

/-- `is_ordered` -/
def Chain.isOrdered (c : Chain) (f : Nat) : Bool :=
  decide (c.filters.getD f .parallel = .serialInOrder)

/-- The number of values of a `Token`. -/
def Chain.tokens (c : Chain) : Nat := 2 ^ c.tokenBits

/-- `task_info` -/
structure TaskInfo where
  object : Nat
  token : Nat
  tokenReady : Bool
  isValid : Bool

/-- `input_buffer` -/
structure InputBuffer where
  array : Nat → TaskInfo
  arraySize : Nat
  lowToken : Nat
  highToken : Nat
  isOrdered : Bool

/-- `initial_buffer_size` -/
def initialBufferSize : Nat := 4

/-- A slot that holds nothing. -/
def TaskInfo.none : TaskInfo := ⟨0, 0, false, false⟩

/-- The constructor of `input_buffer`. -/
def InputBuffer.new (ordered : Bool) : InputBuffer :=
  ⟨fun _ => TaskInfo.none, initialBufferSize, 0, 0, ordered⟩

/-- The slot of a token. -/
def InputBuffer.slot (b : InputBuffer) (token : Nat) : Nat := token &&& (b.arraySize - 1)

/-- The loop `while( new_size<minimum_size ) new_size*=2` in `w` bits. It need
not end, so it is a relation between the size it starts from and the one it
ends with. -/
inductive DoubleSize (w minimum : Nat) : Nat → Nat → Prop
  | enough {size} (h : ¬ size < minimum) : DoubleSize w minimum size size
  | double {size result} (h : size < minimum)
      (next : DoubleSize w minimum (2 * size % 2 ^ w) result) : DoubleSize w minimum size result

/-- The loop of `grow` that copies `count` slots, starting with the one of
`low_token`. -/
def copySlots (w : Nat) (b : InputBuffer) (newSize : Nat) : Nat → Nat → TaskInfo
  | 0 => fun _ => TaskInfo.none
  | count + 1 =>
    let t := (b.lowToken + count) % 2 ^ w
    update (copySlots w b newSize count) (t &&& (newSize - 1)) (b.array (b.slot t))

/-- `input_buffer::grow` -/
inductive Grow (w : Nat) (b : InputBuffer) (minimumSize : Nat) : InputBuffer → Prop
  | intro {newSize} (h : DoubleSize w minimumSize (2 * b.arraySize % 2 ^ w) newSize) :
      Grow w b minimumSize
        { b with array := copySlots w b newSize b.arraySize, arraySize := newSize }

/-- The token `try_put_token` works with, and the task information and the
buffer once it is assigned. -/
def InputBuffer.assignToken (w : Nat) (b : InputBuffer) (info : TaskInfo) :
    Nat × TaskInfo × InputBuffer :=
  let info := { info with isValid := true }
  if b.isOrdered then
    if info.tokenReady then (info.token, info, b)
    else
      (b.highToken, { info with token := b.highToken, tokenReady := true },
        { b with highToken := (b.highToken + 1) % 2 ^ w })
  else (b.highToken, info, { b with highToken := (b.highToken + 1) % 2 ^ w })

/-- The distance of a token from `low_token`. -/
def InputBuffer.distance (w : Nat) (b : InputBuffer) (token : Nat) : Nat :=
  (token + 2 ^ w - b.lowToken) % 2 ^ w

/-- The buffer with room for a token. -/
inductive MakeRoom (w : Nat) (b : InputBuffer) (token : Nat) : InputBuffer → Prop
  | fits (h : b.distance w token < b.arraySize) : MakeRoom w b token b
  | grow {b'} (h : b.arraySize ≤ b.distance w token)
      (hg : Grow w b (b.distance w token + 1) b') : MakeRoom w b token b'

/-- `array[token&(array_size-1)] = info` -/
def InputBuffer.store (b : InputBuffer) (token : Nat) (info : TaskInfo) : InputBuffer :=
  { b with array := update b.array (b.slot token) info }

/-- The locked part of `try_to_spawn_task_for_next_token`: the task information
to wake, if it is valid, and the buffer. -/
def InputBuffer.nextToken (w : Nat) (b : InputBuffer) : TaskInfo × InputBuffer :=
  let low := (b.lowToken + 1) % 2 ^ w
  let item := b.array (b.slot low)
  (item, { b with
    lowToken := low
    array := update b.array (b.slot low) { item with isValid := false } })

/-- The point a `stage_task` has reached. -/
inductive StageTask where
  /-- at the start, nothing done yet -/
  | input
  /-- a parallel first filter, before `try_spawn_stage_task` -/
  | spawning
  /-- in the call of the first filter -/
  | reading
  /-- a serial first filter has produced an item, before `try_spawn_stage_task` -/
  | produced (info : TaskInfo)
  /-- `my_filter` has been advanced to `f` -/
  | entering (f : Nat) (info : TaskInfo)
  /-- about to be executed with `my_filter` equal to `f` -/
  | ready (f : Nat) (info : TaskInfo)
  /-- in the call of filter `f` -/
  | calling (f : Nat) (info : TaskInfo)
  /-- the call of a serial filter is over, before `try_to_spawn_task_for_next_token` -/
  | releasing (f : Nat) (info : TaskInfo)
  /-- the task found no idle token and has not looked at `end_of_input` yet -/
  | recycling

/-- The state of a pipeline. `calls` lists the calls of filters on items so
far, in the order in which they began; a call of the first filter is listed
with the item it produced, once it has. -/
structure State where
  tasks : List StageTask
  buffers : Nat → InputBuffer
  inputTokens : Nat
  endOfInput : Bool
  items : Nat
  calls : List (Nat × Nat)

/-- The state in which `execute_and_wait` starts the first stage task. -/
def Chain.start (c : Chain) : State where
  tasks := [.input]
  buffers := fun f => InputBuffer.new (c.isOrdered f)
  inputTokens := c.maxToken % c.tokens
  endOfInput := false
  items := 0
  calls := []

/-- The input stage task `try_spawn_stage_task` may spawn. -/
def State.spawned (s : State) : List StageTask :=
  if 1 < s.inputTokens then [.input] else []

/-- `input_tokens.fetch_sub(1)` -/
def State.takeToken (c : Chain) (s : State) : Nat := (s.inputTokens + c.tokens - 1) % c.tokens

/-- `input_tokens.fetch_add(1)` -/
def State.returnToken (c : Chain) (s : State) : Nat := (s.inputTokens + 1) % c.tokens

/-- The task information of a new item. A first filter that is serial and in
order takes the token from its own buffer. -/
def Chain.newInfo (c : Chain) (s : State) : TaskInfo :=
  if c.isOrdered 0 then ⟨s.items, (s.buffers 0).highToken, true, false⟩
  else ⟨s.items, 0, false, false⟩

/-- The buffers after a serial first filter has produced an item. -/
def Chain.afterProduced (c : Chain) (s : State) : Nat → InputBuffer :=
  if c.isOrdered 0 then
    update s.buffers 0
      { s.buffers 0 with highToken := ((s.buffers 0).highToken + 1) % c.tokens }
  else s.buffers

/-- The task `try_to_spawn_task_for_next_token` spawns. -/
def wake (f : Nat) (wakee : TaskInfo) : List StageTask :=
  if wakee.isValid then [.ready f wakee] else []

/-- A step of one stage task. -/
inductive Step (c : Chain) : State → State → Prop
  | beginSerial {s xs ys} (ht : s.tasks = xs ++ .input :: ys) (h : c.isSerial 0 = true) :
      Step c s { s with tasks := xs ++ [.reading] ++ ys }
  | beginParallel {s xs ys} (ht : s.tasks = xs ++ .input :: ys) (h : c.isSerial 0 = false)
      (he : s.endOfInput = false) : Step c s { s with tasks := xs ++ [.spawning] ++ ys }
  | noInput {s xs ys} (ht : s.tasks = xs ++ .input :: ys) (h : c.isSerial 0 = false)
      (he : s.endOfInput = true) : Step c s { s with tasks := xs ++ ys }
  | spawnParallel {s xs ys} (ht : s.tasks = xs ++ .spawning :: ys) :
      Step c s { s with
        tasks := xs ++ (.reading :: s.spawned) ++ ys
        inputTokens := s.takeToken c }
  | endInput {s xs ys} (ht : s.tasks = xs ++ .reading :: ys) :
      Step c s { s with tasks := xs ++ ys, endOfInput := true }
  | readOnly {s xs ys} (ht : s.tasks = xs ++ .reading :: ys) (h : c.isSerial 0 = true)
      (hl : c.length = 1) :
      Step c s { s with
        tasks := xs ++ [.input] ++ ys
        buffers := c.afterProduced s
        items := s.items + 1
        calls := s.calls ++ [(0, s.items)] }
  | readSerial {s xs ys} (ht : s.tasks = xs ++ .reading :: ys) (h : c.isSerial 0 = true)
      (hl : c.length ≠ 1) :
      Step c s { s with
        tasks := xs ++ [.produced (c.newInfo s)] ++ ys
        buffers := c.afterProduced s
        items := s.items + 1
        calls := s.calls ++ [(0, s.items)] }
  | spawnSerial {s xs ys info} (ht : s.tasks = xs ++ .produced info :: ys) :
      Step c s { s with
        tasks := xs ++ (.entering 1 info :: s.spawned) ++ ys
        inputTokens := s.takeToken c }
  | readParallel {s xs ys} (ht : s.tasks = xs ++ .reading :: ys) (h : c.isSerial 0 = false) :
      Step c s { s with
        tasks := xs ++ [.entering 1 (c.newInfo s)] ++ ys
        items := s.items + 1
        calls := s.calls ++ [(0, s.items)] }
  | enterParallel {s xs ys f info} (ht : s.tasks = xs ++ .entering f info :: ys)
      (hf : f < c.length) (h : c.isSerial f = false) :
      Step c s { s with tasks := xs ++ [.ready f info] ++ ys }
  | enterNow {s xs ys f info token info' b} (ht : s.tasks = xs ++ .entering f info :: ys)
      (hf : f < c.length) (h : c.isSerial f = true)
      (ha : (s.buffers f).assignToken c.tokenBits info = (token, info', b))
      (hlow : token = b.lowToken) :
      Step c s { s with
        tasks := xs ++ [.ready f info'] ++ ys
        buffers := update s.buffers f b }
  | enterLater {s xs ys f info token info' b b'} (ht : s.tasks = xs ++ .entering f info :: ys)
      (hf : f < c.length) (h : c.isSerial f = true)
      (ha : (s.buffers f).assignToken c.tokenBits info = (token, info', b))
      (hlow : token ≠ b.lowToken) (hr : MakeRoom c.tokenBits b token b') :
      Step c s { s with
        tasks := xs ++ ys
        buffers := update s.buffers f (b'.store token info') }
  | leave {s xs ys info} (ht : s.tasks = xs ++ .entering c.length info :: ys)
      (h : 0 < s.inputTokens) :
      Step c s { s with tasks := xs ++ ys, inputTokens := s.returnToken c }
  | leaveLast {s xs ys info} (ht : s.tasks = xs ++ .entering c.length info :: ys)
      (h : s.inputTokens = 0) :
      Step c s { s with tasks := xs ++ [.recycling] ++ ys, inputTokens := s.returnToken c }
  | recycle {s xs ys} (ht : s.tasks = xs ++ .recycling :: ys) (he : s.endOfInput = false) :
      Step c s { s with tasks := xs ++ [.input] ++ ys }
  | retire {s xs ys} (ht : s.tasks = xs ++ .recycling :: ys) (he : s.endOfInput = true) :
      Step c s { s with tasks := xs ++ ys }
  | beginCall {s xs ys f info} (ht : s.tasks = xs ++ .ready f info :: ys) :
      Step c s { s with
        tasks := xs ++ [.calling f info] ++ ys
        calls := s.calls ++ [(f, info.object)] }
  | endCallParallel {s xs ys f info} (ht : s.tasks = xs ++ .calling f info :: ys)
      (h : c.isSerial f = false) :
      Step c s { s with tasks := xs ++ [.entering (f + 1) info] ++ ys }
  | endCallSerial {s xs ys f info} (ht : s.tasks = xs ++ .calling f info :: ys)
      (h : c.isSerial f = true) :
      Step c s { s with tasks := xs ++ [.releasing f info] ++ ys }
  | release {s xs ys f info wakee b} (ht : s.tasks = xs ++ .releasing f info :: ys)
      (hn : (s.buffers f).nextToken c.tokenBits = (wakee, b)) :
      Step c s { s with
        tasks := xs ++ (.entering (f + 1) info :: wake f wakee) ++ ys
        buffers := update s.buffers f b }

end OneTbb.Pipeline
