import Mathlib.Algebra.Order.Ring.Int

/-!
# What an arena asks of the market

An arena counts its requests for mandatory concurrency and the workers it asks
for. The permit manager's client of the arena keeps the two numbers the market
works with. The counters are numbers: the sums are taken to fit an `int`.
-/

namespace OneTbb.Scheduler

/-- The fields of an arena that its requests use. -/
structure Arena where
  numSlots : Nat
  numReservedSlots : Nat
  maxNumWorkers : Nat
  mandatoryRequests : Int
  totalNumWorkersRequested : Int
  numWorkersAllotted : Int
  isTopPriority : Bool
  deriving DecidableEq, Repr

/-- The number of slots an arena gets. -/
def numArenaSlots (numSlots numReservedSlots : Nat) : Nat :=
  if numReservedSlots = 0 then numSlots else max 2 numSlots

/-- The constructor: two slots at least where an external thread has one. -/
def Arena.create (numSlots numReservedSlots : Nat) : Arena where
  numSlots := numArenaSlots numSlots numReservedSlots
  numReservedSlots := min numReservedSlots numSlots
  maxNumWorkers := numSlots - min numReservedSlots numSlots
  mandatoryRequests := 0
  totalNumWorkersRequested := 0
  numWorkersAllotted := 0
  isTopPriority := false

/-- The value of an interval that is nearest. -/
def clamp (value lowerBound upperBound : Int) : Int :=
  if value > lowerBound then
    if value > upperBound then upperBound else value
  else lowerBound

theorem clamp_nonneg {v u : Int} (hu : 0 ≤ u) : 0 ≤ clamp v 0 u := by
  unfold clamp
  split_ifs <;> omega

theorem clamp_pos_iff {v u : Int} (hu : 0 < u) : 0 < clamp v 0 u ↔ 0 < v := by
  unfold clamp
  split_ifs <;> omega

namespace Arena

def isArenaWorkerless (a : Arena) : Bool := a.maxNumWorkers = 0

def setAllotment (a : Arena) (allotment : Int) : Arena :=
  if a.numWorkersAllotted ≠ allotment then { a with numWorkersAllotted := allotment } else a

def setTopPriority (a : Arena) (isTopPriority : Bool) : Arena :=
  { a with isTopPriority := isTopPriority }

/-- The least number of workers an arena asks for. -/
def minWorkersRequest (a : Arena) : Int := if a.mandatoryRequests > 0 then 1 else 0

/-- The greatest number of workers an arena asks for. -/
def maxWorkersRequest (a : Arena) : Int :=
  clamp a.totalNumWorkersRequested 0
    (if a.minWorkersRequest > 0 ∧ a.isArenaWorkerless then 1 else a.maxNumWorkers)

/-- Change the requests, with the numbers of workers that are asked for then. -/
def updateRequest (a : Arena) (mandatoryDelta workersDelta : Int) : Arena × Int × Int :=
  let b := { a with
    mandatoryRequests := a.mandatoryRequests + mandatoryDelta
    totalNumWorkersRequested := a.totalNumWorkersRequested + workersDelta }
  (b, b.minWorkersRequest, b.maxWorkersRequest)

@[simp] theorem setAllotment_numWorkersAllotted (a : Arena) (n : Int) :
    (a.setAllotment n).numWorkersAllotted = n := by
  unfold setAllotment
  split_ifs with h
  · rfl
  · exact not_not.mp h

theorem setAllotment_eq (a : Arena) (n : Int) :
    a.setAllotment n = { a with numWorkersAllotted := n } := by
  unfold setAllotment
  split_ifs with h
  · rfl
  · rw [← not_not.mp h]

theorem maxWorkersRequest_nonneg (a : Arena) : 0 ≤ a.maxWorkersRequest := by
  apply clamp_nonneg
  split_ifs <;> omega

end Arena

/-- The market's record of an arena. -/
structure Client where
  arena : Arena
  minWorkers : Int
  maxWorkers : Int
  deriving DecidableEq, Repr

namespace Client

/-- A client as it is created. -/
def create (a : Arena) : Client where
  arena := a
  minWorkers := 0
  maxWorkers := 0

/-- The number of workers the market has given. -/
def allotment (c : Client) : Int := c.arena.numWorkersAllotted

def setAllotment (c : Client) (allotment : Int) : Client :=
  { c with arena := c.arena.setAllotment allotment }

def setTopPriority (c : Client) (b : Bool) : Client :=
  { c with arena := c.arena.setTopPriority b }

/-- Pass a request on to the arena. The second component is the change of the greatest
number of workers. -/
def updateRequest (c : Client) (mandatoryDelta workersDelta : Int) : Client × Int :=
  let request := c.arena.updateRequest mandatoryDelta workersDelta
  ({ arena := request.1, minWorkers := request.2.1, maxWorkers := request.2.2 },
    request.2.2 - c.maxWorkers)

@[simp] theorem setAllotment_allotment (c : Client) (n : Int) :
    (c.setAllotment n).allotment = n := Arena.setAllotment_numWorkersAllotted _ _

@[simp] theorem setAllotment_maxWorkers (c : Client) (n : Int) :
    (c.setAllotment n).maxWorkers = c.maxWorkers := rfl

@[simp] theorem setAllotment_minWorkers (c : Client) (n : Int) :
    (c.setAllotment n).minWorkers = c.minWorkers := rfl

@[simp] theorem setTopPriority_allotment (c : Client) (b : Bool) :
    (c.setTopPriority b).allotment = c.allotment := rfl

@[simp] theorem setTopPriority_maxWorkers (c : Client) (b : Bool) :
    (c.setTopPriority b).maxWorkers = c.maxWorkers := rfl

@[simp] theorem setTopPriority_minWorkers (c : Client) (b : Bool) :
    (c.setTopPriority b).minWorkers = c.minWorkers := rfl

theorem updateRequest_delta (c : Client) (m w : Int) :
    (c.updateRequest m w).1.maxWorkers = c.maxWorkers + (c.updateRequest m w).2 := by
  unfold updateRequest
  dsimp only
  omega

theorem updateRequest_nonneg (c : Client) (m w : Int) :
    0 ≤ (c.updateRequest m w).1.maxWorkers :=
  Arena.maxWorkersRequest_nonneg _

end Client

end OneTbb.Scheduler
