import Mathlib.Algebra.Order.Ring.Nat
import Mathlib.Logic.Function.Basic
import OneTbb.Library.Transition

/-!
# `concurrent_bounded_queue` as a system of threads

Each operation on an atomic variable and each critical section of a monitor is a
step of its own. The counters are kept as natural numbers, and everything the
code compares is reduced to words of `bits` bits first. The pages of the eight
micro queues are given by the items at the tickets. A thread that sleeps in a
monitor goes on when its node has been taken out of the waiting set.
-/

namespace OneTbb.BoundedQueue

open Function

/-- What does not change: the width of `size_t`, and `my_capacity`, which is a
`ptrdiff_t` that is not negative. -/
structure Config where
  bits : Nat
  capacity : Nat
  three_lt : 3 < bits
  capacity_lt : capacity < 2 ^ (bits - 1)

/-- `n_queue` -/
def nQueue : Nat := 8

/-- `concurrent_queue_rep::index` -/
def index (ticket : Nat) : Nat := ticket * 3 % nQueue

/-- `k &= -n_queue` -/
def turn (ticket : Nat) : Nat := ticket / nQueue * nQueue

namespace Config

variable (c : Config)

/-- A word as `size_t`. -/
def word (x : Int) : Nat := (x % (2 ^ c.bits : Nat)).toNat

/-- A word as `ptrdiff_t`. -/
def signed (x : Int) : Int := Int.bmod x (2 ^ c.bits)

/-- `head_counter <= target` in `internal_push` -/
def pushWaits (head ticket : Nat) : Bool :=
  decide (c.signed head ≤ c.signed (ticket - c.capacity))

/-- The test of `internal_push_if_not_full`. -/
def isFull (head ticket : Nat) : Bool := decide ((c.capacity : Int) ≤ c.signed (ticket - head))

/-- `tail_counter <= target` in `internal_pop` -/
def popWaits (tail target : Nat) : Bool := decide (c.signed tail ≤ c.signed target)

/-- The test of `internal_try_pop_impl`. -/
def isEmpty (tail ticket : Nat) : Bool := decide (c.signed (tail - ticket) ≤ 0)

end Config

/-- The two monitors: `cbq_slots_avail_tag` and `cbq_items_avail_tag`. -/
inductive Tag where
  | slots
  | items
  deriving DecidableEq, Repr

/-- What follows `cancel_wait`. -/
inductive After where
  | again
  | done
  | thrown
  deriving DecidableEq, Repr

/-- Where a thread is in `concurrent_monitor::wait`. -/
inductive Waiting where
  | prepare
  /-- in the predicate, before `my_abort_counter` is read -/
  | checkAbort (epoch : Nat)
  /-- in the predicate, before the other counter is read -/
  | checkCounter (epoch : Nat)
  | commit (epoch : Nat)
  | asleep
  | cancel (after : After)
  deriving DecidableEq, Repr

/-- How an operation ended. -/
inductive Outcome (α : Type*) where
  | pushed
  /-- `try_push` returned false -/
  | full
  | popped (value : α)
  /-- `try_pop` returned false -/
  | empty
  /-- `user_abort` has been thrown -/
  | userAbort
  /-- `abort` returned -/
  | aborted
  deriving DecidableEq, Repr

/-- `pop` with the abort counter it has read, or `try_pop`. -/
inductive PopKind where
  | pop (oldAbort : Nat)
  | tryPop
  deriving DecidableEq, Repr

/-- What a thread does next. -/
inductive Phase (α : Type*) where
  | idle (last : Option (Outcome α))
  -- `internal_push`
  | pushStart (value : α)
  | pushTicket (value : α) (oldAbort : Nat)
  | pushCheck (value : α) (oldAbort ticket : Nat)
  | pushWait (value : α) (oldAbort ticket : Nat) (waiting : Waiting)
  -- `internal_push_if_not_full`
  | tryPushLoad (value : α)
  | tryPushCheck (value : α) (ticket : Nat)
  | tryPushClaim (value : α) (ticket : Nat)
  -- `micro_queue::push`: waiting for its turn, constructing the item, going on with the counter
  | pushTurn (value : α) (ticket : Nat)
  | pushConstruct (value : α) (ticket : Nat)
  | pushPublish (value : α) (ticket : Nat)
  -- `micro_queue::abort_push`
  | abortTurn (ticket : Nat)
  | abortPublish (ticket : Nat)
  -- `internal_pop`
  | popStart
  | popTicket (oldAbort : Nat)
  | popCheck (oldAbort target : Nat)
  | popWait (oldAbort target : Nat) (waiting : Waiting)
  | popGiveBack (target : Nat)
  -- `internal_try_pop_impl`
  | tryPopLoad
  | tryPopCheck (ticket : Nat)
  | tryPopClaim (ticket : Nat)
  -- `micro_queue::pop`: the two waiting loops, taking the item, and the finalizer
  | popTurn (kind : PopKind) (ticket : Nat)
  | popArrive (kind : PopKind) (ticket : Nat)
  | popRead (kind : PopKind) (ticket : Nat)
  | popFinish (kind : PopKind) (ticket : Nat) (found : Option α)
  -- `notify_bounded_queue_monitor`: whether anybody waits, and the critical section
  | notify (tag : Tag) (ticket : Nat) (outcome : Outcome α)
  | notifyLock (tag : Tag) (ticket : Nat) (outcome : Outcome α)
  -- `internal_abort`
  | abortCount
  | abortCheck (tag : Tag)
  | abortLock (tag : Tag)
  deriving DecidableEq, Repr

/-- The queue, its monitors and the threads. The last two fields record which
items have been published and which have been taken out. -/
structure State (T α : Type*) where
  /-- `head_counter` -/
  head : Nat
  /-- `tail_counter` -/
  tail : Nat
  /-- `my_abort_counter` -/
  abortCounter : Nat
  /-- `head_counter` of the micro queues -/
  microHead : Nat → Nat
  /-- `tail_counter` of the micro queues -/
  microTail : Nat → Nat
  /-- the items whose bit in the mask of their page is set -/
  items : Nat → Option α
  /-- `my_waitset`, with the contexts of the nodes -/
  waitset : Tag → List (T × Nat)
  /-- `my_epoch` -/
  epoch : Tag → Nat
  /-- `my_aborted` of the node of a thread -/
  aborted : T → Bool
  phase : T → Phase α
  published : List (Nat × α)
  delivered : List (Nat × α)

variable {T α : Type*} [DecidableEq T]

namespace State

variable (s : State T α)

/-- The state in which thread `i` goes on with `p`. -/
def goto (i : T) (p : Phase α) : State T α := { s with phase := update s.phase i p }

/-- The critical section of `prepare_wait`. -/
def join (tag : Tag) (i : T) (context : Nat) : State T α :=
  { s with waitset := update s.waitset tag (s.waitset tag ++ [(i, context)]) }

/-- `cancel_wait` -/
def leave (tag : Tag) (i : T) : State T α :=
  { s with
    waitset := update s.waitset tag ((s.waitset tag).filter fun n => decide (n.1 ≠ i)) }

/-- A critical section of `notify` or `abort_all` that keeps some nodes. -/
def release (tag : Tag) (keeps : T × Nat → Bool) : State T α :=
  { s with
    waitset := update s.waitset tag ((s.waitset tag).filter keeps)
    epoch := update s.epoch tag ((s.epoch tag + 1) % 2 ^ 32) }

/-- The node of a thread is in the waiting set. -/
def isWaiting (tag : Tag) (i : T) : Bool := (s.waitset tag).any fun n => decide (n.1 = i)

/-- What a step in `concurrent_monitor::wait` leads to. -/
inductive Progress where
  | waiting (w : Waiting)
  | done
  | thrown

/-- A step in `concurrent_monitor::wait`, with the answer of the predicate that
something is still missing. -/
def waitStep (tag : Tag) (i : T) (context oldAbort : Nat) (missing : Bool) :
    Waiting → Option (State T α × Progress)
  | .prepare => some (s.join tag i context, .waiting (.checkAbort (s.epoch tag)))
  | .checkAbort epoch =>
    if s.abortCounter ≠ oldAbort then some (s, .waiting (.cancel .thrown))
    else some (s, .waiting (.checkCounter epoch))
  | .checkCounter epoch =>
    if missing then some (s, .waiting (.commit epoch)) else some (s, .waiting (.cancel .done))
  | .commit epoch =>
    if epoch = s.epoch tag then some (s, .waiting .asleep)
    else some (s, .waiting (.cancel .again))
  | .asleep =>
    if s.isWaiting tag i then none
    else if s.aborted i then some (s, .thrown) else some (s, .done)
  | .cancel .again => some (s.leave tag i, .waiting .prepare)
  | .cancel .done => some (s.leave tag i, .done)
  | .cancel .thrown => some (s.leave tag i, .thrown)

/-- Entering `concurrent_monitor::wait` makes a new node. -/
def newNode (i : T) : State T α := { s with aborted := update s.aborted i false }

/-- The next step of thread `i`, if it can take one. -/
def advance (c : Config) (i : T) : Option (State T α) :=
  match s.phase i with
  | .idle _ => none
  | .pushStart value => some (s.goto i (.pushTicket value s.abortCounter))
  | .pushTicket value oldAbort =>
    some ({ s with tail := s.tail + 1 }.goto i (.pushCheck value oldAbort s.tail))
  | .pushCheck value oldAbort ticket =>
    if c.pushWaits s.head ticket then
      some ((s.newNode i).goto i (.pushWait value oldAbort ticket .prepare))
    else some (s.goto i (.pushTurn value ticket))
  | .pushWait value oldAbort ticket w =>
    (s.waitStep .slots i (c.word (ticket - c.capacity)) oldAbort
      (c.pushWaits s.head ticket) w).map fun
      | (t, .waiting w) => t.goto i (.pushWait value oldAbort ticket w)
      | (t, .done) => t.goto i (.pushTurn value ticket)
      | (t, .thrown) => t.goto i (.abortTurn ticket)
  | .tryPushLoad value => some (s.goto i (.tryPushCheck value s.tail))
  | .tryPushCheck value ticket =>
    if c.isFull s.head ticket then some (s.goto i (.idle (some .full)))
    else some (s.goto i (.tryPushClaim value ticket))
  | .tryPushClaim value ticket =>
    if c.word s.tail = c.word ticket then
      some ({ s with tail := s.tail + 1 }.goto i (.pushTurn value s.tail))
    else some (s.goto i (.tryPushCheck value s.tail))
  | .pushTurn value ticket =>
    if c.word (s.microTail (index ticket)) = c.word (turn ticket) then
      some (s.goto i (.pushConstruct value ticket))
    else none
  | .pushConstruct value ticket =>
    some ({ s with items := update s.items ticket (some value) }.goto i
      (.pushPublish value ticket))
  | .pushPublish value ticket =>
    some ({ s with
      microTail := update s.microTail (index ticket)
        (s.microTail (index ticket) + nQueue)
      published := s.published ++ [(ticket, value)] }.goto i (.notify .items ticket .pushed))
  | .abortTurn ticket =>
    if c.word (s.microTail (index ticket)) = c.word (turn ticket) then
      some (s.goto i (.abortPublish ticket))
    else none
  | .abortPublish ticket =>
    some ({ s with
      microTail := update s.microTail (index ticket)
        (s.microTail (index ticket) + nQueue) }.goto i (.idle (some .userAbort)))
  | .popStart => some (s.goto i (.popTicket s.abortCounter))
  | .popTicket oldAbort =>
    some ({ s with head := s.head + 1 }.goto i (.popCheck oldAbort s.head))
  | .popCheck oldAbort target =>
    if c.popWaits s.tail target then
      some ((s.newNode i).goto i (.popWait oldAbort target .prepare))
    else some (s.goto i (.popTurn (.pop oldAbort) target))
  | .popWait oldAbort target w =>
    (s.waitStep .items i (c.word target) oldAbort (c.popWaits s.tail target) w).map fun
      | (t, .waiting w) => t.goto i (.popWait oldAbort target w)
      | (t, .done) => t.goto i (.popTurn (.pop oldAbort) target)
      | (t, .thrown) => t.goto i (.popGiveBack target)
  | .popGiveBack _ => some ({ s with head := s.head - 1 }.goto i (.idle (some .userAbort)))
  | .tryPopLoad => some (s.goto i (.tryPopCheck s.head))
  | .tryPopCheck ticket =>
    if c.isEmpty s.tail ticket then some (s.goto i (.idle (some .empty)))
    else some (s.goto i (.tryPopClaim ticket))
  | .tryPopClaim ticket =>
    if c.word s.head = c.word ticket then
      some ({ s with head := s.head + 1 }.goto i (.popTurn .tryPop s.head))
    else some (s.goto i (.tryPopCheck s.head))
  | .popTurn kind ticket =>
    if c.word (s.microHead (index ticket)) = c.word (turn ticket) then
      some (s.goto i (.popArrive kind ticket))
    else none
  | .popArrive kind ticket =>
    if c.word (s.microTail (index ticket)) = c.word (turn ticket) then none
    else some (s.goto i (.popRead kind ticket))
  | .popRead kind ticket =>
    match s.items ticket with
    | some value =>
      some ({ s with delivered := s.delivered ++ [(ticket, value)] }.goto i
        (.popFinish kind ticket (some value)))
    | none => some (s.goto i (.popFinish kind ticket none))
  | .popFinish kind ticket found =>
    let t := { s with
      microHead := update s.microHead (index ticket) (turn ticket + nQueue) }
    match found, kind with
    | some value, _ => some (t.goto i (.notify .slots ticket (.popped value)))
    | none, .pop oldAbort => some (t.goto i (.popTicket oldAbort))
    | none, .tryPop => some (t.goto i .tryPopLoad)
  | .notify tag ticket outcome =>
    if s.waitset tag = [] then some (s.goto i (.idle (some outcome)))
    else some (s.goto i (.notifyLock tag ticket outcome))
  | .notifyLock tag ticket outcome =>
    some ((s.release tag fun n => decide (c.word ticket < n.2)).goto i (.idle (some outcome)))
  | .abortCount =>
    some ({ s with abortCounter := (s.abortCounter + 1) % 2 ^ 32 }.goto i (.abortCheck .items))
  | .abortCheck tag =>
    if s.waitset tag = [] then
      match tag with
      | .items => some (s.goto i (.abortCheck .slots))
      | .slots => some (s.goto i (.idle (some .aborted)))
    else some (s.goto i (.abortLock tag))
  | .abortLock tag =>
    let t := { s.release tag fun _ => false with
      aborted := fun j => s.aborted j || s.isWaiting tag j }
    match tag with
    | .items => some (t.goto i (.abortCheck .slots))
    | .slots => some (t.goto i (.idle (some .aborted)))

end State

/-- The calls a thread makes. -/
inductive Call (α : Type*) where
  | push (value : α)
  | tryPush (value : α)
  | pop
  | tryPop
  | abort
  deriving DecidableEq, Repr

/-- Where a call starts. -/
def Call.start : Call α → Phase α
  | .push value => .pushStart value
  | .tryPush value => .tryPushLoad value
  | .pop => .popStart
  | .tryPop => .tryPopLoad
  | .abort => .abortCount

/-- A thread makes a call, or takes the next step in the one it is in. -/
inductive Event (T α : Type*) where
  | call (i : T) (operation : Call α)
  | advance (i : T)
  deriving DecidableEq, Repr

/-- An event, if it can happen. -/
def step (c : Config) (s : State T α) : Event T α → Option (State T α)
  | .call i operation =>
    match s.phase i with
    | .idle _ => some (s.goto i operation.start)
    | _ => none
  | .advance i => s.advance c i

/-- An empty queue that nobody uses yet. -/
def State.initial : State T α where
  head := 0
  tail := 0
  abortCounter := 0
  microHead _ := 0
  microTail _ := 0
  items _ := none
  waitset _ := []
  epoch _ := 0
  aborted _ := false
  phase _ := .idle none
  published := []
  delivered := []

end OneTbb.BoundedQueue
