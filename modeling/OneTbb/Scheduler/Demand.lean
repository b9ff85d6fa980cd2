import OneTbb.Scheduler.Request
import OneTbb.Library.Transition

/-!
# The calls that change an arena's requests

A thread that makes work available sets the flags of the arena, a thread that finds no
work clears them, and an external thread that enters or leaves takes or gives back a
slot. Each call reads and writes one shared word at a time. It asks the market for
workers at its end, under the market's mutex, by what the flags told it.
-/

namespace OneTbb.Scheduler

/-! ### A flag -/

/-- The word of an `atomic_flag`. A call that may clear the flag puts the address of a
variable of its own. The calls are numbered instead of the addresses, and no number is
used twice: an address used again would only let `test_and_set` interrupt a later call. -/
inductive FlagState where
  | unset
  | set
  | busy (owner : Nat)
  deriving DecidableEq, Repr

/-- What a call that returns `true` has done to a flag. -/
inductive Change where
  | set
  | clear
  deriving DecidableEq, Repr

/-- A flag, with the successful calls on it, the last one in front. -/
structure Flag where
  state : FlagState
  log : List Change
  deriving DecidableEq, Repr

/-- A place at which work can be available. -/
inductive Place where
  | slot (k : Nat)
  | fifo
  | resume
  | critical
  deriving DecidableEq, Repr

/-- A piece of available work. -/
structure Work where
  id : Nat
  place : Place
  deriving DecidableEq, Repr

/-- The next thing `test_and_set` does. -/
inductive SetStep where
  | load
  | interrupt (owner : Nat)
  | exchange
  deriving DecidableEq, Repr

/-- The next thing `try_clear_if` does. A check knows the places it has still to look at, and
which work was available when it began. -/
inductive ClearStep where
  | load
  | exchange
  | start
  | check (todo : List Place) (seen : List Work)
  | restore
  deriving DecidableEq, Repr

namespace Flag

def initial : Flag := ⟨.unset, []⟩

def test (f : Flag) : Bool := f.state ≠ .unset

/-- One step of `test_and_set`: what is done next, or what is returned. -/
def testAndSet (f : Flag) : SetStep → Flag × (SetStep ⊕ Bool)
  | .load =>
    match f.state with
    | .set => (f, .inr false)
    | .busy owner => (f, .inl (.interrupt owner))
    | .unset => (f, .inl .exchange)
  | .interrupt owner =>
    if f.state = .busy owner then ({ f with state := .set }, .inr false)
    else if f.state ≠ .unset then (f, .inr false)
    else (f, .inl .exchange)
  | .exchange =>
    if f.state = .unset then (⟨.set, .set :: f.log⟩, .inr true) else (f, .inr false)

/-- One step of `try_clear_if`. The predicate looks at the places one after the other for
available work. -/
def tryClearIf (f : Flag) (owner : Nat) (places : List Place) (available : List Work) :
    ClearStep → Flag × (ClearStep ⊕ Bool)
  | .load => if f.state = .set then (f, .inl .exchange) else (f, .inr false)
  | .exchange =>
    if f.state = .set then ({ f with state := .busy owner }, .inl .start) else (f, .inr false)
  | .start => (f, .inl (.check places available))
  | .check (place :: todo) seen =>
    if available.any (·.place = place) then (f, .inl .restore) else (f, .inl (.check todo seen))
  | .check [] _ =>
    if f.state = .busy owner then (⟨.unset, .clear :: f.log⟩, .inr true) else (f, .inr false)
  | .restore => (if f.state = .busy owner then { f with state := .set } else f, .inr false)

end Flag

/-! ### An arena's calls -/

inductive NewWorkType where
  | workSpawned
  | wakeup
  | workEnqueued
  deriving DecidableEq, Repr

/-- A call under way. -/
inductive Job where
  | setMandatory (s : SetStep)
  | setPool (s : SetStep) (isMandatoryNeeded : Bool)
  | advertised (isMandatoryNeeded areWorkersNeeded : Bool)
  | clearMandatory (owner : Nat) (s : ClearStep)
  | clearPool (owner : Nat) (s : ClearStep) (disableMandatory : Bool)
  | outOfWork (disableMandatory releaseWorkers : Bool)
  | enter (slot : Nat)
  | leave (slot : Nat)
  | release (slot : Nat)
  deriving DecidableEq, Repr

/-- The slot a call is to take or to give back. -/
def Job.slot : Job → Option Nat
  | .enter slot | .leave slot | .release slot => some slot
  | _ => none

/-- The flags of an arena, the available work, the slots of the external threads that are
inside, and the calls under way. -/
structure Activity where
  mandatoryConcurrency : Flag
  poolState : Flag
  limit : Nat
  available : List Work
  nextWork : Nat
  nextOwner : Nat
  inside : List Nat
  jobs : List Job
  deriving DecidableEq, Repr

inductive Event where
  | makeAvailable (place : Place)
  | take (i : Nat)
  | occupy (k : Nat)
  | advertiseNewWork (workType : NewWorkType)
  | outOfWork
  | enter (slot : Nat)
  | leave (slot : Nat)
  | proceed (i : Nat)
  deriving DecidableEq, Repr

/-- A request to the market: the changes of the mandatory requests and of the workers. -/
abbrev Request := Int × Int

namespace Activity

def initial : Activity where
  mandatoryConcurrency := .initial
  poolState := .initial
  limit := 1
  available := []
  nextWork := 0
  nextOwner := 0
  inside := []
  jobs := []

/-- The places `has_tasks` looks at. -/
def places (s : Activity) : List Place :=
  (List.range s.limit).map .slot ++ [.fifo, .resume, .critical]

/-- The request at the end of `advertise_new_work`. -/
def advertiseRequest (a : Arena) (isMandatoryNeeded areWorkersNeeded : Bool) : Request :=
  (if isMandatoryNeeded then 1 else 0,
    if isMandatoryNeeded && a.isArenaWorkerless then 1
    else if areWorkersNeeded then a.maxNumWorkers else 0)

/-- The request at the end of `out_of_work`. -/
def outOfWorkRequest (a : Arena) (disableMandatory releaseWorkers : Bool) : Request :=
  (if disableMandatory then -1 else 0,
    if disableMandatory && a.isArenaWorkerless then -1
    else if releaseWorkers then -(a.maxNumWorkers : Int) else 0)

/-- The next step of a call: what is left of the call, and the request it makes. -/
def proceed (a : Arena) (s : Activity) : Job → Activity × Option Job × Option Request
  | .setMandatory step =>
    let (flag, next) := s.mandatoryConcurrency.testAndSet step
    ({ s with mandatoryConcurrency := flag },
      some (next.elim .setMandatory fun needed => .setPool .load needed), none)
  | .setPool step isMandatoryNeeded =>
    let (flag, next) := s.poolState.testAndSet step
    ({ s with poolState := flag },
      next.elim (fun step => some (.setPool step isMandatoryNeeded)) (fun needed =>
        if isMandatoryNeeded || needed then some (.advertised isMandatoryNeeded needed)
        else none),
      none)
  | .advertised isMandatoryNeeded areWorkersNeeded =>
    (s, none, some (advertiseRequest a isMandatoryNeeded areWorkersNeeded))
  | .clearMandatory owner step =>
    let (flag, next) := s.mandatoryConcurrency.tryClearIf owner [.fifo] s.available step
    ({ s with mandatoryConcurrency := flag },
      some (next.elim (.clearMandatory owner) fun cleared => .clearPool owner .load cleared),
      none)
  | .clearPool owner step disableMandatory =>
    let (flag, next) := s.poolState.tryClearIf owner s.places s.available step
    ({ s with poolState := flag },
      next.elim (fun step => some (.clearPool owner step disableMandatory)) (fun cleared =>
        if disableMandatory || cleared then some (.outOfWork disableMandatory cleared)
        else none),
      none)
  | .outOfWork disableMandatory releaseWorkers =>
    (s, none, some (outOfWorkRequest a disableMandatory releaseWorkers))
  | .enter slot => ({ s with inside := slot :: s.inside }, none, some (0, -1))
  | .leave slot => (s, some (.release slot), some (0, 1))
  | .release _ => (s, none, none)

/-- No external thread has the slot. -/
def Free (s : Activity) (slot : Nat) : Prop :=
  slot ∉ s.inside ∧ ∀ job ∈ s.jobs, job.slot ≠ some slot

instance (s : Activity) (slot : Nat) : Decidable (s.Free slot) :=
  inferInstanceAs (Decidable (_ ∧ _))

/-- A step of the arena, with the request it makes. Work is spawned by a thread that has a
slot, which has raised the limit when it took the slot. -/
def step (a : Arena) (s : Activity) : Event → Option (Activity × Option Request)
  | .makeAvailable place =>
    if place ∈ s.places then
      some ({ s with
        available := ⟨s.nextWork, place⟩ :: s.available
        nextWork := s.nextWork + 1 }, none)
    else none
  | .take i =>
    if i < s.available.length then some ({ s with available := s.available.eraseIdx i }, none)
    else none
  | .occupy k =>
    if k < a.numSlots then some ({ s with limit := max s.limit (k + 1) }, none) else none
  | .advertiseNewWork workType =>
    some ({ s with
      jobs := s.jobs ++ [if workType = .workEnqueued ∧ a.numSlots > a.numReservedSlots
        then .setMandatory .load else .setPool .load false] }, none)
  | .outOfWork =>
    some ({ s with
      nextOwner := s.nextOwner + 1
      jobs := s.jobs ++ [.clearMandatory s.nextOwner .load] }, none)
  | .enter slot =>
    if slot < a.numSlots ∧ s.Free slot then
      let s := { s with limit := max s.limit (slot + 1) }
      if a.numReservedSlots ≤ slot then some ({ s with jobs := s.jobs ++ [.enter slot] }, none)
      else some ({ s with inside := slot :: s.inside }, none)
    else none
  | .leave slot =>
    if slot ∈ s.inside then
      some ({ s with
        inside := s.inside.erase slot
        jobs := s.jobs ++ [if a.numReservedSlots ≤ slot then .leave slot else .release slot] },
        none)
    else none
  | .proceed i =>
    s.jobs[i]?.map fun job =>
      let (s, next, request) := s.proceed a job
      ({ s with jobs := next.elim (s.jobs.eraseIdx i) (s.jobs.set i) }, request)

end Activity

/-- Apply a request to the counters of the arena. -/
def Arena.request (a : Arena) (request : Option Request) : Arena :=
  request.elim a fun r => (a.updateRequest r.1 r.2).1

/-- One arena and its calls. -/
structure ArenaState where
  arena : Arena
  activity : Activity
  deriving DecidableEq, Repr

namespace ArenaState

def create (numSlots numReservedSlots : Nat) : ArenaState :=
  ⟨Arena.create numSlots numReservedSlots, .initial⟩

def step (s : ArenaState) (event : Event) : Option ArenaState :=
  (s.activity.step s.arena event).map fun (activity, request) =>
    ⟨s.arena.request request, activity⟩

/-- Any interleaving of calls. -/
def Run : ArenaState → ArenaState → Prop :=
  Relation.ReflTransGen fun s t => ∃ event, s.step event = some t

end ArenaState

end OneTbb.Scheduler
