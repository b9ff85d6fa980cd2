import OneTbb.Library.Selection

/-!
# `resource_limiter`

A limiter keeps a pool of handles, the requests it has notified and those that
are pending. Each function here is the part of a member function that runs under
`m_mutex`; the notifications it collects are delivered by the caller after the
lock is released. Consumers are named by their node and their position in the
tuple of consumers of the node.
-/

namespace OneTbb.ResourceLimiter

open Selection Segment

/-- `request_id`. The unique integers come from a counter of 64 bits, which is taken not to
wrap. -/
structure RequestId where
  uniqueInteger : Nat
  timePoint : Int
  priority : Nat
  deriving DecidableEq, Repr

/-- `operator<` of `request_id`: by priority, then by time, then by the unique integer. -/
def RequestId.lt (a b : RequestId) : Bool :=
  if a.priority ≠ b.priority then decide (b.priority < a.priority)
  else if a.timePoint ≠ b.timePoint then decide (a.timePoint < b.timePoint)
  else decide (a.uniqueInteger < b.uniqueInteger)

/-- `consumer_data` -/
structure ConsumerData where
  id : RequestId
  consumer : Nat × Nat
  deriving DecidableEq, Repr

/-- `operator<` of `consumer_data`: a greater id has less priority. -/
def ConsumerData.lt (a b : ConsumerData) : Bool := b.id.lt a.id

/-- `operator==` of `consumer_data` compares the unique integers and the consumers. -/
def ConsumerData.same (a b : ConsumerData) : Bool :=
  decide (a.id.uniqueInteger = b.id.uniqueInteger ∧ a.consumer = b.consumer)

def higherPriorityFirst (a b : ConsumerData) : Bool := b.lt a

/-- The data members of `resource_limiter`. -/
structure Limiter (H : Type) where
  resourceHandles : List H
  pending : List ConsumerData
  notified : List ConsumerData

variable {H : Type}

/-- The comparison of a request with the element of `m_notified` that is the
lowest one the handles suffice for. -/
def belowThreshold (numHandles : Nat) (notified : List ConsumerData) (x : ConsumerData) : Bool :=
  match notified[numHandles - 1]? with
  | some threshold => x.lt threshold
  | none => false

/-- The requests `m_notified` after `select_lowest_priority_to_serve`, and whether
`x` is below the threshold it returns. -/
def selectLowestPriorityToServe (std : OrderAlgorithms higherPriorityFirst) (numHandles : Nat)
    (notified : List ConsumerData) (x : ConsumerData) : List ConsumerData × Bool :=
  let arranged := std.nthElement (numHandles - 1) notified
  (arranged, belowThreshold numHandles arranged x)

/-- `request`; the answer says whether the consumer is to be notified. -/
def Limiter.request (std : OrderAlgorithms higherPriorityFirst) (l : Limiter H)
    (x : ConsumerData) : Limiter H × Bool :=
  if l.resourceHandles.length = 0 then ({ l with pending := l.pending ++ [x] }, false)
  else if l.resourceHandles.length ≤ l.notified.length then
    let (notified, below) :=
      selectLowestPriorityToServe std l.resourceHandles.length l.notified x
    if below then ({ l with pending := l.pending ++ [x], notified := notified }, false)
    else ({ l with notified := notified ++ [x] }, true)
  else ({ l with notified := l.notified ++ [x] }, true)

/-- `extract_handle` -/
def Limiter.extractHandle (l : Limiter H) : Limiter H × Option H :=
  match l.resourceHandles with
  | [] => (l, none)
  | h :: rest => ({ l with resourceHandles := rest }, some h)

/-- `acquire` -/
def Limiter.acquire (std : OrderAlgorithms higherPriorityFirst) (l : Limiter H)
    (x : ConsumerData) : Limiter H × Option H :=
  let wasNotified := l.notified.any (·.same x)
  let notified := l.notified.eraseP (·.same x)
  if l.resourceHandles.length = 0 || !wasNotified then ({ l with notified := notified }, none)
  else if l.resourceHandles.length ≤ notified.length then
    let (notified, below) := selectLowestPriorityToServe std l.resourceHandles.length notified x
    if below then ({ l with notified := notified }, none)
    else { l with notified := notified }.extractHandle
  else { l with notified := notified }.extractHandle

/-- The loop of `notify_pending` that fills the room under the notification
limit: the requests moved, those left and the notified ones. -/
def fillRoom (numHandles : Nat) : List ConsumerData → List ConsumerData →
    List ConsumerData × List ConsumerData × List ConsumerData
  | [], notified => ([], [], notified)
  | x :: rest, notified =>
    if notified.length < numHandles then
      let (moved, left, notified) := fillRoom numHandles rest (notified ++ [x])
      (x :: moved, left, notified)
    else ([], x :: rest, notified)

/-- The loop of `notify_pending` that compares the requests left with the
notified ones, which are kept sorted. -/
def outrank (numHandles : Nat) : List ConsumerData → List ConsumerData →
    List ConsumerData × List ConsumerData × List ConsumerData
  | [], notified => ([], [], notified)
  | x :: rest, notified =>
    if belowThreshold numHandles notified x then ([], x :: rest, notified)
    else
      let (moved, left, notified) :=
        outrank numHandles rest (insertUpper higherPriorityFirst x notified)
      (x :: moved, left, notified)

/-- `notify_pending`; the answer is `to_notify`. -/
def Limiter.notifyPending (std : OrderAlgorithms higherPriorityFirst) (l : Limiter H) :
    Limiter H × List ConsumerData :=
  if l.pending = [] ∨ l.resourceHandles.length = 0 then (l, [])
  else
    let (moved, left, notified) :=
      fillRoom l.resourceHandles.length (std.sort l.pending) l.notified
    if left = [] then ({ l with pending := [], notified := notified }, moved)
    else
      let (moved', left, notified) :=
        outrank l.resourceHandles.length left (std.sort notified)
      ({ l with pending := left, notified := notified }, moved ++ moved')

/-- `release` -/
def Limiter.release (std : OrderAlgorithms higherPriorityFirst) (l : Limiter H) (handle : H) :
    Limiter H × List ConsumerData :=
  { l with resourceHandles := handle :: l.resourceHandles }.notifyPending std

/-- `withdraw` -/
def Limiter.withdraw (std : OrderAlgorithms higherPriorityFirst) (l : Limiter H)
    (x : ConsumerData) : Limiter H × List ConsumerData :=
  if l.notified.any (·.same x) then
    { l with notified := l.notified.eraseP (·.same x) }.notifyPending std
  else ({ l with pending := l.pending.eraseP (·.same x) }, [])

end OneTbb.ResourceLimiter
