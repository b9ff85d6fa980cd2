import OneTbb.FlowGraph.ItemQueue
import OneTbb.FlowGraph.ReservingJoin

/-!
# `join_node` with the policy `queueing`

A put to a port changes its queue first and the shared count of the ports without items in
a second step. The handler of the node reads the fronts of the ports, puts the tuple to the
successors, and removes the fronts only if it was accepted.
-/

namespace OneTbb.FlowGraph.QueueingJoin

open Function

open ReservingJoin (Call)

variable {α σ : Type*}

/-- Where the handler of the node is. Ports are read from the last to the first, and reset from the
first to the last. -/
inductive Handler (α : Type*) where
  | idle
  /-- before `tuple_build_may_succeed` -/
  | mayBuild (call : Call)
  /-- before the test of `try_to_make_tuple` -/
  | makeTuple (call : Call)
  /-- the ports below `k` are to be read; whether all others had an item, and the items -/
  | getting (call : Call) (k : Nat) (ok : Bool) (out : List α)
  /-- before the put to the successors -/
  | offering (out : List α)
  /-- before `reset_port_count` -/
  | resetCount (call : Call)
  /-- the ports from `k` on are to be reset -/
  | resetPort (call : Call) (k : Nat)
  /-- waits for the reset of the port `k` to return -/
  | resetWait (call : Call) (k : Nat)
  deriving DecidableEq, Repr

def Handler.isIdle : Handler α → Bool
  | .idle => true
  | _ => false

structure State (α σ : Type*) where
  /-- the queues of the ports -/
  bufs : Nat → ItemBuffer α
  /-- whether an operation of the port still has to decrement the count -/
  pending : Nat → Bool
  portsWithNoItems : Nat
  successors : List σ
  forwarderBusy : Bool
  /-- the forwarding tasks that have not begun -/
  forwarders : Nat
  handler : Handler α
  /-- the successors that have declined the tuple at the fronts -/
  declined : List σ
  /-- the messages a port accepted, in order -/
  accepted : Nat → List α
  /-- the messages a port removed, in order -/
  taken : Nat → List α
  /-- the tuples that were accepted, in order -/
  delivered : List (List α)

namespace State

/-- A new node with `n` ports. -/
def initial (n : Nat) : State α σ where
  bufs _ := .initial
  pending _ := false
  portsWithNoItems := n
  successors := []
  forwarderBusy := false
  forwarders := 0
  handler := .idle
  declined := []
  accepted _ := []
  taken _ := []
  delivered := []

/-- The operation `try__put_task` of a port, up to `decrement_port_count`, or nothing if the push
does not return normally -/
def tryPutTask (W : SizeType) (s : State α σ) (i : Nat) (x : α) : Option (State α σ) :=
  ((s.bufs i).pushBack W x).map fun buf =>
    { s with
      bufs := update s.bufs i buf
      pending := update s.pending i (s.bufs i).bufferEmpty
      accepted := update s.accepted i (s.accepted i ++ [x]) }

/-- `decrement_port_count`, which makes a forwarding task -/
def decrementPortCount (W : SizeType) (s : State α σ) (i : Nat) : State α σ :=
  { s with
    pending := update s.pending i false
    portsWithNoItems := (s.portsWithNoItems + 2 ^ W.bits - 1) % 2 ^ W.bits
    forwarders := if s.portsWithNoItems = 1 then s.forwarders + 1 else s.forwarders }

/-- The operation `reg_succ` -/
def regSucc (s : State α σ) (r : σ) (priority : Bool) : State α σ :=
  let s := { s with
    successors := NodeCache.registerSuccessor r priority s.successors, declined := [] }
  if s.portsWithNoItems = 0 ∧ s.forwarderBusy = false then
    { s with forwarders := s.forwarders + 1, forwarderBusy := true }
  else s

/-- The end of an operation that builds tuples. -/
def finish (s : State α σ) : Call → State α σ
  | .forward => { s with handler := .idle, forwarderBusy := false }
  | .get => { s with handler := .idle }

/-- The operation `get__item` of a port, for the handler of the node -/
def getItem (s : State α σ) (call : Call) (i : Nat) (ok : Bool) (out : List α) : State α σ :=
  match if (s.bufs i).bufferEmpty then none else (s.bufs i).front with
  | some x => { s with handler := .getting call i ok (x :: out) }
  | none => { s with handler := .getting call i false out }

/-- The operation `res_port` of a port, up to `decrement_port_count`, for the handler of the
node -/
def resPort (W : SizeType) (s : State α σ) (call : Call) (i : Nat) : State α σ :=
  { s with
    bufs := update s.bufs i ((s.bufs i).destroyFront W)
    pending := update s.pending i
      (((s.bufs i).destroyFront W).itemValid ((s.bufs i).destroyFront W).head)
    taken := update s.taken i (s.taken i ++ (s.bufs i).front.toList)
    handler := .resetWait call i }

/-- The next step of the handler of the node with `n` ports, with the answers of the successors.
It waits for a port whose operation has not returned. -/
def advance (W : SizeType) (n : Nat) (s : State α σ) (puts : List NodeCache.Answer) :
    Option (State α σ) :=
  match s.handler with
  | .idle => none
  | .mayBuild call =>
    some (if s.portsWithNoItems = 0 then { s with handler := .makeTuple call }
      else s.finish call)
  | .makeTuple call =>
    some (if s.portsWithNoItems = 0 then { s with handler := .getting call n true [] }
      else s.finish call)
  | .getting call (k + 1) ok out =>
    if s.pending k then none else some (s.getItem call k ok out)
  | .getting call 0 false _ => some (s.finish call)
  | .getting .forward 0 true out => some { s with handler := .offering out }
  | .getting .get 0 true out =>
    some { s with handler := .resetCount .get, delivered := s.delivered ++ [out] }
  | .offering out =>
    let r := NodeCache.tryPutTask s.successors puts
    some (if r.1 then
      { s with
        successors := r.2, handler := .resetCount .forward, delivered := s.delivered ++ [out] }
    else { s with successors := r.2, declined := r.2 }.finish .forward)
  | .resetCount call =>
    some { s with portsWithNoItems := n, declined := [], handler := .resetPort call 0 }
  | .resetPort call k =>
    if k < n then
      if s.pending k then none else some (s.resPort W call k)
    else
      match call with
      | .forward => some { s with handler := .makeTuple .forward }
      | .get => some (s.finish .get)
  | .resetWait call k =>
    if s.pending k then none else some { s with handler := .resetPort call (k + 1) }

end State

/-- What happens next: a put to a port begins or ends, the handler of the node takes an operation,
or goes on. -/
inductive Event (α σ : Type*) where
  | put (i : Nat) (x : α)
  | settle (i : Nat)
  | regSucc (r : σ) (priority : Bool)
  | remSucc (r : σ)
  | begin (call : Call)
  | advance (puts : List NodeCache.Answer)

/-- One event in a node with `n` ports, if it can happen and returns. -/
def State.step [DecidableEq σ] (W : SizeType) (n : Nat) (s : State α σ) :
    Event α σ → Option (State α σ)
  | .put i x => if i < n ∧ s.pending i = false then s.tryPutTask W i x else none
  | .settle i =>
    if i < n ∧ s.pending i = true then some (s.decrementPortCount W i) else none
  | .regSucc r priority =>
    if s.handler.isIdle then some (s.regSucc r priority) else none
  | .remSucc r =>
    if s.handler.isIdle then some { s with successors := s.successors.erase r } else none
  | .begin .forward =>
    if s.handler.isIdle ∧ 0 < s.forwarders then
      some { s with handler := .mayBuild .forward, forwarders := s.forwarders - 1 }
    else none
  | .begin .get =>
    if s.handler.isIdle then some { s with handler := .mayBuild .get } else none
  | .advance puts => s.advance W n puts

end OneTbb.FlowGraph.QueueingJoin
