import OneTbb.Scheduler.Request
import OneTbb.Library.Apportion
import OneTbb.Library.Transition

/-!
# The market

The market keeps the clients of each priority level, the demand of each level and
of all, and hands the workers out anew whenever a demand or the limit changes. A
client is named by its level and its place in the list of the level. Every call
holds the market's mutex, so a call is one step. Products of demands are taken to
fit an `int`.
-/

namespace OneTbb.Scheduler

/-- A priority level: the workers its clients ask for, and the clients in the order they
were registered. -/
structure PriorityList where
  demand : Int
  clients : List Client
  deriving DecidableEq, Repr

/-- Number of priority levels. The first is the highest. -/
def numPriorityLevels : Nat := 3

structure Market where
  numWorkersSoftLimit : Int
  totalDemand : Int
  mandatoryNumRequested : Int
  levels : List PriorityList
  deriving DecidableEq, Repr

namespace Market

/-- The market as it is constructed. -/
def create (workersSoftLimit : Int) : Market where
  numWorkersSoftLimit := workersSoftLimit
  totalDemand := 0
  mandatoryNumRequested := 0
  levels := List.replicate numPriorityLevels ⟨0, []⟩

/-- One worker more than the limit is given when there is mandatory work and the limit is
zero. -/
def effectiveSoftLimit (m : Market) : Int :=
  if m.mandatoryNumRequested > 0 ∧ m.numWorkersSoftLimit = 0 then 1 else m.numWorkersSoftLimit

/-- The number of workers to hand out. -/
def maxWorkers (m : Market) : Int := min m.totalDemand m.effectiveSoftLimit

end Market

/-- The variables of the loops of `update_allotment`. The highest level with a demand is
`none` until it is met. -/
structure Progress where
  unassignedWorkers : Int
  assigned : Int
  carry : Int
  maxPriorityLevel : Option Nat
  deriving DecidableEq, Repr

/-- What the loop over the clients of one level reads. -/
structure LevelData where
  numWorkersSoftLimit : Int
  maxWorkers : Int
  listIdx : Nat
  demand : Int
  assignedPerPriority : Int

/-- The body of the loop over the clients of a level. -/
def updateClient (d : LevelData) (p : Progress) (client : Client) : Client × Progress :=
  if client.maxWorkers = 0 then
    (client.setAllotment 0, p)
  else
    let top := p.maxPriorityLevel.getD d.listIdx
    let (allotted, carry) :=
      if d.numWorkersSoftLimit = 0 then
        (if client.minWorkers > 0 ∧ p.assigned < d.maxWorkers then 1 else 0, p.carry)
      else
        (Apportion.share d.assignedPerPriority d.demand client.maxWorkers p.carry,
          Apportion.rest d.assignedPerPriority d.demand client.maxWorkers p.carry)
    ((client.setAllotment allotted).setTopPriority (d.listIdx = top),
      { p with
        assigned := p.assigned + allotted
        carry := carry
        maxPriorityLevel := some top })

/-- The loop over the clients, the ones to be served first in front. -/
def updateClients (d : LevelData) (p : Progress) : List Client → List Client × Progress
  | [] => ([], p)
  | client :: rest =>
    let (served, p₁) := updateClient d p client
    let (others, p₂) := updateClients d p₁ rest
    (served :: others, p₂)

/-- The data of a level, with the workers it can get. -/
def levelData (m : Market) (p : Progress) (listIdx : Nat) (level : PriorityList) : LevelData where
  numWorkersSoftLimit := m.numWorkersSoftLimit
  maxWorkers := m.maxWorkers
  listIdx := listIdx
  demand := level.demand
  assignedPerPriority := min level.demand p.unassignedWorkers

/-- The body of the loop over the levels. The clients added last are served first. -/
def updateLevel (m : Market) (p : Progress) (listIdx : Nat) (level : PriorityList) :
    PriorityList × Progress :=
  let d := levelData m p listIdx level
  let (clients, p₁) := updateClients d
    { p with unassignedWorkers := p.unassignedWorkers - d.assignedPerPriority }
    level.clients.reverse
  ({ level with clients := clients.reverse }, p₁)

/-- The loop over the levels from one on. -/
def updateLevels (m : Market) (p : Progress) (listIdx : Nat) :
    List PriorityList → List PriorityList × Progress
  | [] => ([], p)
  | level :: rest =>
    let (served, p₁) := updateLevel m p listIdx level
    let (others, p₂) := updateLevels m p₁ (listIdx + 1) rest
    (served :: others, p₂)

namespace Market

/-- The variables before the loops. -/
def progress (m : Market) : Progress where
  unassignedWorkers := m.maxWorkers
  assigned := 0
  carry := 0
  maxPriorityLevel := none

/-- Hand the workers out. -/
def updateAllotment (m : Market) : Market :=
  { m with levels := (updateLevels m m.progress 0 m.levels).1 }

/-- The assertion at the end of `update_allotment`. -/
def AllAssigned (m : Market) : Prop :=
  (updateLevels m m.progress 0 m.levels).2.assigned = m.maxWorkers

instance (m : Market) : Decidable m.AllAssigned := inferInstanceAs (Decidable (_ = _))

/-- Add a client to its level. -/
def registerClient (m : Market) (l : Nat) (c : Client) : Option Market :=
  m.levels[l]?.map fun level =>
    { m with levels := m.levels.set l { level with clients := level.clients ++ [c] } }

/-- Remove a client from its level. -/
def unregisterAndDestroyClient (m : Market) (l i : Nat) : Option Market :=
  m.levels[l]?.bind fun level => level.clients[i]?.map fun _ =>
    { m with levels := m.levels.set l { level with clients := level.clients.eraseIdx i } }

/-- Change the limit. -/
def setActiveNumWorkers (m : Market) (softLimit : Int) : Market :=
  if m.numWorkersSoftLimit ≠ softLimit then
    updateAllotment { m with numWorkersSoftLimit := softLimit }
  else m

/-- Pass a request of a client on and count it, before the workers are handed out. -/
def countRequest (m : Market) (l i : Nat) (mandatoryDelta workersDelta : Int) : Option Market :=
  m.levels[l]?.bind fun level => level.clients[i]?.map fun c =>
    let (c₁, delta) := c.updateRequest mandatoryDelta workersDelta
    { m with
      totalDemand := m.totalDemand + delta
      mandatoryNumRequested := m.mandatoryNumRequested + mandatoryDelta
      levels := m.levels.set l
        { demand := level.demand + delta, clients := level.clients.set i c₁ } }

/-- A client's need for workers changes. -/
def adjustDemand (m : Market) (l i : Nat) (mandatoryDelta workersDelta : Int) : Option Market :=
  (m.countRequest l i mandatoryDelta workersDelta).map updateAllotment

end Market

/-- A call of the market. -/
inductive Call where
  | registerClient (l numSlots numReservedSlots : Nat)
  | unregisterAndDestroyClient (l i : Nat)
  | adjustDemand (l i : Nat) (mandatoryDelta workersDelta : Int)
  | setActiveNumWorkers (softLimit : Int)
  deriving DecidableEq, Repr

namespace Market

/-- The client at a place of a level. -/
def client (m : Market) (l i : Nat) : Option Client :=
  m.levels[l]?.bind fun level => level.clients[i]?

/-- A call, if it is allowed: a client that is removed has no demand, and mandatory
concurrency is requested or released once at a time. -/
def step (m : Market) : Call → Option Market
  | .registerClient l numSlots numReservedSlots =>
    m.registerClient l (Client.create (Arena.create numSlots numReservedSlots))
  | .unregisterAndDestroyClient l i =>
    if (m.client l i).any (·.maxWorkers = 0) then m.unregisterAndDestroyClient l i else none
  | .adjustDemand l i mandatoryDelta workersDelta =>
    if -1 ≤ mandatoryDelta ∧ mandatoryDelta ≤ 1 then
      m.adjustDemand l i mandatoryDelta workersDelta
    else none
  | .setActiveNumWorkers softLimit => some (m.setActiveNumWorkers softLimit)

/-- Any number of calls. -/
def Run : Market → Market → Prop := Relation.ReflTransGen fun m m' => ∃ call, m.step call = some m'

end Market

end OneTbb.Scheduler
