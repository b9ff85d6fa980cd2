import OneTbb.ResourceLimiter.Limiter

/-!
# `resource_limited_body_leaf` and the threads that run it

A node names a limiter for each of its consumers. Threads deliver notifications,
one after the other, and then go on with their job; a job is the point a thread
has reached in the functions of the body. Between two points a thread makes at
most one access to shared data: one locked section of a limiter, one operation
on `notify_counter`, or one on `m_requests`. The handles of a request are used
by the thread that runs it only. When messages arrive, what the body does with
them and which tasks are cancelled are choices of the step relation.
-/

namespace OneTbb.ResourceLimiter

open Function

open Selection

/-- The handles each limiter is built with, and for each node the limiters its
consumers request from and its priority. -/
structure Graph (H : Type) where
  handles : Nat → List H
  handles_ne_nil : ∀ p, handles p ≠ []
  consumers : Nat → List Nat
  priority : Nat → Nat

variable {H : Type}

/-- The size of the tuple of consumers of a node. -/
def Graph.size (g : Graph H) (node : Nat) : Nat := (g.consumers node).length

/-- The limiter of a consumer. -/
def Graph.limiterOf (g : Graph H) (consumer : Nat × Nat) : Nat :=
  (g.consumers consumer.1).getD consumer.2 0

/-- `request_data`, with the id it is stored under in `m_requests`. -/
structure RequestData (H : Type) where
  id : RequestId
  notifyCounter : Int
  handles : Nat → Option H

/-- The data shared between threads. `m_requests` of a node is indexed by the
unique integer, which is what `request_id` is compared and hashed by. -/
structure Shared (H : Type) where
  limiters : Nat → Limiter H
  counters : Nat → Nat
  requests : Nat × Nat → Option (RequestData H)

/-- A request of a node. -/
structure Ref where
  node : Nat
  id : RequestId
  deriving DecidableEq

/-- Where a request is found in `m_requests`. -/
def Ref.key (r : Ref) : Nat × Nat := (r.node, r.id.uniqueInteger)

/-- What the consumer at a position gives to its limiter. -/
def Ref.data (r : Ref) (i : Nat) : ConsumerData := ⟨r.id, (r.node, i)⟩

/-- The request a notification is for. -/
def ConsumerData.ref (x : ConsumerData) : Ref := ⟨x.consumer.1, x.id⟩

/-- The points a thread can have reached. -/
inductive Job (H : Type) where
  /-- `operator()`, before the request of consumer `i` -/
  | requesting (r : Ref) (i : Nat)
  /-- a spawned `try_acquire_resources_and_execute_task` -/
  | task (r : Ref)
  /-- before `try_acquire_resources` -/
  | starting (r : Ref)
  /-- before `acquire_resources_helper<i>` -/
  | acquiring (r : Ref) (i : Nat)
  /-- the local counter is set, before `acquire_from_provider` -/
  | asking (r : Ref) (i : Nat)
  | granted (r : Ref) (i : Nat) (handle : H)
  | denied (r : Ref) (i : Nat)
  /-- before `release_and_rerequest_resources_helper<j>`, denied at `d` -/
  | returning (r : Ref) (d j : Nat)
  /-- handle `j` is released -/
  | reasking (r : Ref) (d j : Nat)
  /-- the counter is incremented for the request of consumer `j` -/
  | rerequesting (r : Ref) (d j : Nat)
  /-- the counter is incremented for the request that was denied -/
  | rerequestingDenied (r : Ref) (d : Nat)
  /-- before `release_self_ref` -/
  | selfRef (r : Ref)
  /-- in `call_body` -/
  | body (r : Ref)
  /-- before `release_resources_helper<j>` -/
  | finishing (r : Ref) (j : Nat)
  /-- `cancel_request`, before the withdrawal of consumer `i` -/
  | withdrawing (r : Ref) (i : Nat)

/-- A thread with the notifications it has to deliver first. -/
structure Thread (H : Type) where
  notifications : List ConsumerData
  job : Option (Job H)

structure State (H : Type) where
  shared : Shared H
  threads : List (Thread H)

def Graph.start (g : Graph H) : State H where
  shared := ⟨fun p => ⟨g.handles p, [], []⟩, fun _ => 0, fun _ => none⟩
  threads := []

/-- A change of the data of a request. -/
def Shared.modify (s : Shared H) (k : Nat × Nat) (f : RequestData H → RequestData H) : Shared H :=
  { s with requests := update s.requests k ((s.requests k).map f) }

/-- `notify_counter += n` -/
def Shared.addCounter (s : Shared H) (k : Nat × Nat) (n : Int) : Shared H :=
  s.modify k fun d => { d with notifyCounter := d.notifyCounter + n }

/-- `handles[i] = handle` -/
def Shared.setHandle (s : Shared H) (k : Nat × Nat) (i : Nat) (handle : Option H) : Shared H :=
  s.modify k fun d => { d with handles := update d.handles i handle }

def Shared.setLimiter (s : Shared H) (p : Nat) (l : Limiter H) : Shared H :=
  { s with limiters := update s.limiters p l }

variable (g : Graph H) (std : OrderAlgorithms higherPriorityFirst)

/-- `request_from_provider` of consumer `i` -/
def Shared.requestFrom (s : Shared H) (r : Ref) (i : Nat) : Shared H × List ConsumerData :=
  let p := g.limiterOf (r.node, i)
  let (l, notify) := (s.limiters p).request std (r.data i)
  (s.setLimiter p l, if notify then [r.data i] else [])

/-- `acquire_from_provider` of consumer `i` -/
def Shared.acquireFrom (s : Shared H) (r : Ref) (i : Nat) : Shared H × Option H :=
  let p := g.limiterOf (r.node, i)
  let (l, handle) := (s.limiters p).acquire std (r.data i)
  (s.setLimiter p l, handle)

/-- `release_to_provider` of consumer `i`, which leaves no handle behind -/
def Shared.releaseTo (s : Shared H) (r : Ref) (i : Nat) : Shared H × List ConsumerData :=
  match (s.requests r.key).bind (·.handles i) with
  | none => (s, [])
  | some handle =>
    let p := g.limiterOf (r.node, i)
    let (l, moved) := (s.limiters p).release std handle
    ((s.setLimiter p l).setHandle r.key i none, moved)

/-- `withdraw_from_provider` of consumer `i` -/
def Shared.withdrawFrom (s : Shared H) (r : Ref) (i : Nat) : Shared H × List ConsumerData :=
  let p := g.limiterOf (r.node, i)
  let (l, moved) := (s.limiters p).withdraw std (r.data i)
  (s.setLimiter p l, moved)

/-- `release_self_ref`: who brings the counter to zero acquires the resources. -/
def Shared.releaseSelfRef (s : Shared H) (r : Ref) : Shared H × List ConsumerData × Option (Job H) :=
  (s.addCounter r.key (-1), [],
    if (s.requests r.key).map RequestData.notifyCounter = some 1 then some (.starting r) else none)

/-- `remove_request` -/
def Shared.removeRequest (s : Shared H) (r : Ref) : Shared H :=
  { s with requests := update s.requests r.key none }

/-- One step of a job: the shared data, the notifications to deliver and where
the thread goes on. -/
def perform (s : Shared H) : Job H → Shared H × List ConsumerData × Option (Job H)
  | .requesting r i =>
    if i < g.size r.node then
      let (s, ns) := s.requestFrom g std r i
      (s, ns, some (.requesting r (i + 1)))
    else s.releaseSelfRef r
  | .task r => (s.addCounter r.key 1, [], some (.acquiring r 0))
  | .starting r => (s.addCounter r.key 1, [], some (.acquiring r 0))
  | .acquiring r i =>
    if i < g.size r.node then (s.addCounter r.key 1, [], some (.asking r i))
    else (s.addCounter r.key (-1), [], some (.body r))
  | .asking r i =>
    match s.acquireFrom g std r i with
    | (s, some handle) => (s, [], some (.granted r i handle))
    | (s, none) => (s, [], some (.denied r i))
  | .granted r i handle =>
    ((s.addCounter r.key (-1)).setHandle r.key i (some handle), [], some (.acquiring r (i + 1)))
  | .denied r i => (s.addCounter r.key (-1), [], some (.returning r i i))
  | .returning r d (j + 1) =>
    let (s, ns) := s.releaseTo g std r j
    (s, ns, some (.reasking r d j))
  | .returning r d 0 => (s.addCounter r.key 1, [], some (.rerequestingDenied r d))
  | .reasking r d j => (s.addCounter r.key 1, [], some (.rerequesting r d j))
  | .rerequesting r d j =>
    let (s, ns) := s.requestFrom g std r j
    (s, ns, some (.returning r d j))
  | .rerequestingDenied r d =>
    let (s, ns) := s.requestFrom g std r d
    (s, ns, some (.selfRef r))
  | .selfRef r => s.releaseSelfRef r
  | .body r => (s, [], some (.finishing r (g.size r.node)))
  | .finishing r (j + 1) =>
    let (s, ns) := s.releaseTo g std r j
    (s, ns, some (.finishing r j))
  | .finishing r 0 => (s.removeRequest r, [], none)
  | .withdrawing r i =>
    if i < g.size r.node then
      let (s, ns) := s.withdrawFrom g std r i
      (s, ns, some (.withdrawing r (i + 1)))
    else (s.removeRequest r, [], none)

/-- `form_request` for a message that comes to a node at some time. -/
def Shared.formRequest (s : Shared H) (node : Nat) (time : Int) : Shared H × Ref :=
  let id : RequestId := ⟨s.counters node + 1, time, g.priority node⟩
  ({ s with
      counters := update s.counters node (s.counters node + 1)
      requests := update s.requests (node, s.counters node + 1)
        (some ⟨id, g.size node + 1, fun _ => none⟩) }, ⟨node, id⟩)

/-- The task `notify` spawns when it brings the counter to zero. -/
def Shared.spawned (s : Shared H) (x : ConsumerData) : List (Thread H) :=
  if (s.requests x.ref.key).map RequestData.notifyCounter = some 1 then
    [⟨[], some (.task x.ref)⟩]
  else []

/-- A step of one thread, or a message that arrives. -/
inductive Step : State H → State H → Prop
  | message {s : State H} (node : Nat) (time : Int) :
      Step s ⟨(s.shared.formRequest g node time).1,
        s.threads ++ [⟨[], some (.requesting (s.shared.formRequest g node time).2 0)⟩]⟩
  | notify {s : State H} {xs ys x rest job} (ht : s.threads = xs ++ ⟨x :: rest, job⟩ :: ys) :
      Step s ⟨s.shared.addCounter x.ref.key (-1),
        xs ++ (⟨rest, job⟩ :: s.shared.spawned x) ++ ys⟩
  | work {s : State H} {xs ys job} (ht : s.threads = xs ++ ⟨[], some job⟩ :: ys) :
      Step s ⟨(perform g std s.shared job).1,
        xs ++ [⟨(perform g std s.shared job).2.1, (perform g std s.shared job).2.2⟩] ++ ys⟩
  | cancel {s : State H} {xs ys r} (ht : s.threads = xs ++ ⟨[], some (.task r)⟩ :: ys) :
      Step s ⟨s.shared, xs ++ [⟨[], some (.withdrawing r 0)⟩] ++ ys⟩
  | finish {s : State H} {xs ys} (ht : s.threads = xs ++ ⟨[], none⟩ :: ys) :
      Step s ⟨s.shared, xs ++ ys⟩

end OneTbb.ResourceLimiter
