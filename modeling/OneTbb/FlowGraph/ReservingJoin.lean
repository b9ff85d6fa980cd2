import OneTbb.FlowGraph.NodeCache
import OneTbb.Library.Transition
import Mathlib.Algebra.BigOperators.Group.Finset.Basic

/-!
# `join_node` with the policy `reserving`

Every port has an aggregator of its own, and so has the node. The operations of a port
change its cache first and the shared count of the ports without inputs in a second step,
and an operation of the node goes through the ports one after the other. In between the
operations of the other aggregators happen.
-/

namespace OneTbb.FlowGraph.ReservingJoin

open Function

variable {ι α σ : Type*}

/-- The change of the count an operation of a port still has to make. -/
inductive Pending where
  | none
  | decrement
  | increment
  deriving DecidableEq, Repr

/-- `reserving_port` -/
structure Port (ι α : Type*) where
  /-- `my_predecessors` -/
  cache : List ι
  reserved : Bool
  /-- `reserved_src`, with the item it has reserved -/
  reservedSrc : Option (ι × α)
  pending : Pending

/-- The operation of the node that builds a tuple: `do_fwrd_bypass` or `try__get`. -/
inductive Call where
  | forward
  | get
  deriving DecidableEq, Repr

/-- Where the handler of the node is. Ports are reserved and consumed from the last to the first,
and released from the first to the last. -/
inductive Handler where
  | idle
  /-- before `tuple_build_may_succeed` -/
  | mayBuild (call : Call)
  /-- before the test of `try_to_make_tuple` -/
  | makeTuple (call : Call)
  /-- the ports below `k` are to be reserved -/
  | reserving (call : Call) (k : Nat)
  /-- waits for the failed reservation of the port `k` to return -/
  | failed (call : Call) (k : Nat)
  /-- the ports from `k` on are to be released -/
  | releasing (call : Call) (k : Nat)
  /-- before the put to the successors -/
  | offering
  /-- the ports below `k` are to be consumed -/
  | consuming (call : Call) (k : Nat)
  deriving DecidableEq, Repr

/-- A port, the predecessor it reserved an item of, and the item. -/
abbrev Reservation (ι α : Type*) := Nat × ι × α

/-- What an attempt to build a tuple did, in order. -/
structure Attempt (ι α : Type*) where
  made : List (Reservation ι α)
  consumed : List (Reservation ι α)
  released : List (Reservation ι α)
  delivered : Option (List α)

structure State (ι α σ : Type*) where
  ports : Nat → Port ι α
  portsWithNoInputs : Nat
  successors : List σ
  forwarderBusy : Bool
  /-- the forwarding tasks that have not ended -/
  forwarders : Nat
  handler : Handler
  /-- the tuple under construction, and what happened to it -/
  out : List α
  delivered : Bool
  made : List (Reservation ι α)
  consumed : List (Reservation ι α)
  released : List (Reservation ι α)
  /-- the attempts that have ended -/
  attempts : List (Attempt ι α)
  /-- the reservations the predecessors of a port keep for it -/
  outstanding : Nat → Nat

namespace State

/-- A new node with `n` ports. -/
def initial (n : Nat) : State ι α σ where
  ports _ := ⟨[], false, none, .none⟩
  portsWithNoInputs := n
  successors := []
  forwarderBusy := false
  forwarders := 0
  handler := .idle
  out := []
  delivered := false
  made := []
  consumed := []
  released := []
  attempts := []
  outstanding _ := 0

def setPort (s : State ι α σ) (i : Nat) (p : Port ι α) : State ι α σ :=
  { s with ports := update s.ports i p }

@[simp] theorem setPort_ports_self (s : State ι α σ) (i : Nat) (p : Port ι α) :
    (s.setPort i p).ports i = p := by
  simp only [setPort, update_self]

theorem setPort_ports_of_ne (s : State ι α σ) {i j : Nat} (h : j ≠ i) (p : Port ι α) :
    (s.setPort i p).ports j = s.ports j := by
  simp only [setPort, update_of_ne h]

/-- The operation `reg_pred` of a port, up to `decrement_port_count` -/
def regPred (s : State ι α σ) (i : Nat) (src : ι) : State ι α σ :=
  s.setPort i { s.ports i with
    cache := (s.ports i).cache ++ [src]
    pending := if (s.ports i).cache = [] then .decrement else .none }

/-- The operation `rem_pred` of a port, up to `increment_port_count` -/
def remPred [DecidableEq ι] (s : State ι α σ) (i : Nat) (src : ι) : State ι α σ :=
  if (s.ports i).cache = [] then s
  else
    let cache := NodeCache.remove src (s.ports i).cache
    s.setPort i { s.ports i with
      cache := cache
      pending := if cache = [] then .increment else .none }

/-- The rest of an operation of a port: `decrement_port_count`, which spawns a forwarding task, or
`increment_port_count`. -/
def settle (bits : Nat) (s : State ι α σ) (i : Nat) : Option (State ι α σ) :=
  let settled := s.setPort i { s.ports i with pending := .none }
  match (s.ports i).pending with
  | .none => none
  | .decrement => some { settled with
      portsWithNoInputs := (s.portsWithNoInputs + 2 ^ bits - 1) % 2 ^ bits
      forwarders := if s.portsWithNoInputs = 1 then s.forwarders + 1 else s.forwarders }
  | .increment => some { settled with
      portsWithNoInputs := (s.portsWithNoInputs + 1) % 2 ^ bits }

/-- The operation `reg_succ` -/
def regSucc (s : State ι α σ) (r : σ) (priority : Bool) : State ι α σ :=
  let s := { s with successors := NodeCache.registerSuccessor r priority s.successors }
  if s.portsWithNoInputs = 0 ∧ s.forwarderBusy = false then
    { s with forwarders := s.forwarders + 1, forwarderBusy := true }
  else s

/-- The end of an operation that builds tuples. -/
def finish (s : State ι α σ) : Call → State ι α σ
  | .forward =>
    { s with handler := .idle, forwarderBusy := false, forwarders := s.forwarders - 1 }
  | .get => { s with handler := .idle }

/-- The end of an attempt. -/
def endAttempt (s : State ι α σ) : State ι α σ :=
  { s with
    attempts := s.attempts ++
      [⟨s.made, s.consumed, s.released, if s.delivered then some s.out else none⟩]
    made := [], consumed := [], released := [], out := [], delivered := false }

/-- The operation `res_item` of a port, for the handler of the node -/
def resItem (s : State ι α σ) (call : Call) (i : Nat) (answers : List (Option α)) :
    State ι α σ :=
  if (s.ports i).reserved then { s with handler := .failed call i }
  else
    -- `try_reserve` returns at once while something is reserved
    let r := if (s.ports i).reservedSrc.isSome then (none, (s.ports i).cache)
      else NodeCache.tryReserve (s.ports i).cache answers
    match r.1 with
    | some (src, x) =>
      { s.setPort i { s.ports i with
          cache := r.2, reserved := true, reservedSrc := some (src, x) } with
        handler := .reserving call i
        out := x :: s.out
        made := s.made ++ [(i, src, x)]
        outstanding := update s.outstanding i (s.outstanding i + 1) }
    | none =>
      { s.setPort i { s.ports i with
          cache := r.2, pending := if r.2 = [] then .increment else .none } with
        handler := .failed call i }

/-- The operation `rel_res` of a port, which calls the reserved predecessor -/
def relRes (s : State ι α σ) (i : Nat) : Option (State ι α σ) :=
  (s.ports i).reservedSrc.map fun r =>
    { s.setPort i { s.ports i with reserved := false, reservedSrc := none } with
      released := s.released ++ [(i, r)]
      outstanding := update s.outstanding i (s.outstanding i - 1) }

/-- The operation `con_res` of a port, which calls the reserved predecessor -/
def conRes (s : State ι α σ) (i : Nat) : Option (State ι α σ) :=
  (s.ports i).reservedSrc.map fun r =>
    { s.setPort i { s.ports i with reserved := false, reservedSrc := none } with
      consumed := s.consumed ++ [(i, r)]
      outstanding := update s.outstanding i (s.outstanding i - 1) }

/-- The next step of the handler of the node with `n` ports, with the answers of the predecessors
of a port and of the successors. It waits for a port whose operation has not returned. -/
def advance (n : Nat) (s : State ι α σ) (answers : List (Option α))
    (puts : List NodeCache.Answer) : Option (State ι α σ) :=
  match s.handler with
  | .idle => none
  | .mayBuild call =>
    some (if s.portsWithNoInputs = 0 then { s with handler := .makeTuple call }
      else s.finish call)
  | .makeTuple call =>
    some (if s.portsWithNoInputs = 0 then { s with handler := .reserving call n }
      else s.finish call)
  | .reserving .forward 0 => some { s with handler := .offering }
  | .reserving .get 0 => some { s with handler := .consuming .get n, delivered := true }
  | .reserving call (k + 1) =>
    if (s.ports k).pending = .none then some (s.resItem call k answers) else none
  | .failed call k =>
    if (s.ports k).pending = .none then some { s with handler := .releasing call (k + 1) }
    else none
  | .releasing call k =>
    if k < n then
      if (s.ports k).pending = .none then
        (s.relRes k).map fun s => { s with handler := .releasing call (k + 1) }
      else none
    else some (s.endAttempt.finish call)
  | .offering =>
    let r := NodeCache.tryPutTask s.successors puts
    some { s with
      successors := r.2
      delivered := r.1
      handler := if r.1 then .consuming .forward n else .releasing .forward 0 }
  | .consuming .forward 0 => some { s.endAttempt with handler := .makeTuple .forward }
  | .consuming .get 0 => some (s.endAttempt.finish .get)
  | .consuming call (k + 1) =>
    if (s.ports k).pending = .none then
      (s.conRes k).map fun s => { s with handler := .consuming call k }
    else none

end State

/-- What happens next: an operation of a port begins or ends, the handler of the node takes an
operation, or goes on. -/
inductive Event (ι α σ : Type*) where
  | regPred (i : Nat) (src : ι)
  | remPred (i : Nat) (src : ι)
  | settle (i : Nat)
  | regSucc (r : σ) (priority : Bool)
  | remSucc (r : σ)
  | begin (call : Call)
  | advance (answers : List (Option α)) (puts : List NodeCache.Answer)

/-- One event in a node with `n` ports, if it can happen. -/
def State.step [DecidableEq ι] [DecidableEq σ] (bits n : Nat) (s : State ι α σ) :
    Event ι α σ → Option (State ι α σ)
  | .regPred i src =>
    if i < n ∧ (s.ports i).pending = .none then some (s.regPred i src) else none
  | .remPred i src =>
    if i < n ∧ (s.ports i).pending = .none then some (s.remPred i src) else none
  | .settle i => if i < n then s.settle bits i else none
  | .regSucc r priority => if s.handler = .idle then some (s.regSucc r priority) else none
  | .remSucc r =>
    if s.handler = .idle then some { s with successors := s.successors.erase r } else none
  | .begin call =>
    if s.handler = .idle ∧ (call = .forward → 0 < s.forwarders) then
      some { s with handler := .mayBuild call }
    else none
  | .advance answers puts => s.advance n answers puts

end OneTbb.FlowGraph.ReservingJoin
