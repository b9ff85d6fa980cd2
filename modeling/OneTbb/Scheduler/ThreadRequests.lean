import OneTbb.Library.Positions
import OneTbb.Library.Transition
import OneTbb.Library.Word

/-!
# The serializer of thread requests

Changes of the demand for threads are collected in one word by all callers, and applied
by the caller that found the word empty. The number of threads that the dispatcher is
asked for is kept at the demand or at the limit, whichever is lower. A limit of zero is
raised to one while there are mandatory requests. Such a request is counted under the
read lock of a `rw_mutex`, and the call that finds the first or the last one upgrades its
lock. If there are other readers and a writer waits, it loses the lock before it can act.
-/

namespace OneTbb.Scheduler.ThreadRequests

open Option List Relation Positions

/-- The middle of the low half of the word, so that it can hold negative sums. -/
def pendingDeltaBase : Int := 32768

/-- The low half of the word holds the sum, what is above counts the changes. -/
def counterValue : Int := 65536

/-- The word of a `rw_mutex`. -/
structure RwMutex where
  readers : Nat
  writer : Bool
  writerPending : Bool
  deriving DecidableEq, Repr

/-- The bits that keep a reader out. -/
def RwMutex.hasWriter (m : RwMutex) : Bool := m.writer || m.writerPending

/-- `BUSY`, which keeps a writer out -/
def RwMutex.busy (m : RwMutex) : Bool := m.writer || m.readers != 0

/-- What is done under the write lock. -/
inductive Work where
  | enableMandatoryConcurrency
  | disableMandatoryConcurrency
  | setActiveNumWorkers (softLimit : Nat)
  deriving DecidableEq, Repr

/-- A mandatory request is made or taken back. -/
abbrev MandatoryDelta := { delta : Int // delta = 1 ∨ delta = -1 }

/-- The point a call has reached. -/
inductive Job where
  /-- before the load of `try_lock_shared` -/
  | lockShared (mandatoryDelta : MandatoryDelta)
  /-- before its `fetch_add` -/
  | addReader (mandatoryDelta : MandatoryDelta)
  /-- counted as a reader in spite of a writer -/
  | retreat (mandatoryDelta : MandatoryDelta)
  /-- under the read lock, before the mandatory request is counted -/
  | register (mandatoryDelta : MandatoryDelta)
  | unlockShared
  /-- in the loop of `upgrade` -/
  | upgrade (work : Work)
  /-- `upgrade` has set both bits and waits for the other readers -/
  | awaitReaders (work : Work)
  /-- `upgrade` has to release the lock and to acquire it again -/
  | reacquire (work : Work)
  /-- before `try_lock` -/
  | lock (work : Work)
  /-- `try_lock` has failed -/
  | loadPending (work : Work)
  /-- before `m_state |= WRITER_PENDING` -/
  | setPending (work : Work)
  /-- under the write lock -/
  | locked (work : Work)
  /-- before `set_active_num_workers` of the serializer -/
  | setLimit
  | unlock
  /-- an `update` that is to fetch what has been collected -/
  | exchange
  | apply (delta : Int)
  deriving DecidableEq, Repr

structure State where
  softLimit : Int
  totalRequest : Int
  pendingDelta : Int
  numMandatoryRequests : Int
  isMandatoryConcurrencyEnabled : Bool
  mutex : RwMutex
  /-- The limit that the owner of the write lock is about to set. -/
  writing : Option Int
  jobs : List Job
  /-- The limit set last. -/
  limit : Int
  /-- The changes collected in the word. -/
  batch : List Int
  /-- The sum of all changes. -/
  requested : Int
  /-- The sum of what the dispatcher was sent. -/
  sent : Int
  deriving DecidableEq, Repr

inductive Event where
  | update (delta : Int)
  | registerMandatoryRequest (mandatoryDelta : MandatoryDelta)
  | setActiveNumWorkers (softLimit : Nat)
  | proceed (i : Nat)
  deriving DecidableEq, Repr

/-- The part of a change that stays below the limit. -/
def limitDelta (delta limit newValue : Int) : Int :=
  let prevValue := newValue - delta
  min limit newValue - min limit prevValue

namespace State

def create (softLimit : Nat) : State where
  softLimit := softLimit
  totalRequest := 0
  pendingDelta := pendingDeltaBase
  numMandatoryRequests := 0
  isMandatoryConcurrencyEnabled := false
  mutex := ⟨0, false, false⟩
  writing := none
  jobs := []
  limit := softLimit
  batch := []
  requested := 0
  sent := 0

/-- Add a change to the word. The caller that finds the word empty is to fetch it. -/
def update (s : State) (delta : Int) : State :=
  let prevPendingDelta := Word.signed s.pendingDelta
  { s with
    pendingDelta := (s.pendingDelta + counterValue + delta) % 18446744073709551616
    batch := delta :: s.batch
    requested := s.requested + delta
    jobs := if prevPendingDelta = pendingDeltaBase then s.jobs ++ [.exchange] else s.jobs }

/-- The section of `update` under the mutex. -/
def applyDelta (s : State) (delta : Int) : State :=
  let totalRequest := s.totalRequest + delta
  { s with
    totalRequest := totalRequest
    sent := s.sent + limitDelta delta s.softLimit totalRequest }

/-- `set_active_num_workers` of the serializer. -/
def setSoftLimit (s : State) (softLimit : Int) : State :=
  { s with
    sent := s.sent + limitDelta (softLimit - s.softLimit) s.totalRequest softLimit
    softLimit := softLimit }

/-- Count a mandatory request under the read lock. -/
def registerMandatoryRequest (s : State) (mandatoryDelta : Int) : State × Job :=
  let prevValue := s.numMandatoryRequests
  let shouldTryEnable := mandatoryDelta > 0 ∧ prevValue = 0
  let shouldTryDisable := mandatoryDelta < 0 ∧ prevValue = 1
  ({ s with numMandatoryRequests := prevValue + mandatoryDelta },
    if shouldTryEnable then .upgrade .enableMandatoryConcurrency
    else if shouldTryDisable then .upgrade .disableMandatoryConcurrency
    else .unlockShared)

/-- What the owner of the write lock does before it sets a limit or unlocks. -/
def perform (s : State) : Work → State × Job
  | .enableMandatoryConcurrency =>
    if s.numMandatoryRequests > 0 ∧ ¬ s.isMandatoryConcurrencyEnabled ∧ s.softLimit = 0 then
      ({ s with isMandatoryConcurrencyEnabled := true, writing := some 1 }, .setLimit)
    else (s, .unlock)
  | .disableMandatoryConcurrency =>
    if s.numMandatoryRequests ≤ 0 ∧ s.isMandatoryConcurrencyEnabled ∧ ¬ s.softLimit = 0 then
      ({ s with isMandatoryConcurrencyEnabled := false, writing := some 0 }, .setLimit)
    else (s, .unlock)
  | .setActiveNumWorkers softLimit =>
    if softLimit ≠ 0 then
      ({ s with
        isMandatoryConcurrencyEnabled := false
        writing := some softLimit
        limit := softLimit }, .setLimit)
    else if s.numMandatoryRequests > 0 then
      ({ s with
        isMandatoryConcurrencyEnabled := true
        writing := some 1
        limit := softLimit }, .setLimit)
    else ({ s with writing := some softLimit, limit := softLimit }, .setLimit)

/-- The next step of a call, with what is left of the call. -/
def proceed (s : State) : Job → Option (State × Option Job)
  | .lockShared mandatoryDelta =>
    if s.mutex.hasWriter then none else some (s, some (.addReader mandatoryDelta))
  | .addReader mandatoryDelta =>
    some ({ s with mutex := { s.mutex with readers := s.mutex.readers + 1 } },
      some (if s.mutex.hasWriter then .retreat mandatoryDelta else .register mandatoryDelta))
  | .retreat mandatoryDelta =>
    some ({ s with mutex := { s.mutex with readers := s.mutex.readers - 1 } },
      some (.lockShared mandatoryDelta))
  | .register mandatoryDelta =>
    let (s, next) := s.registerMandatoryRequest mandatoryDelta
    some (s, some next)
  | .unlockShared =>
    some ({ s with mutex := { s.mutex with readers := s.mutex.readers - 1 } }, none)
  | .upgrade work =>
    -- the only reader keeps its lock, and so does the first one to become a writer
    if s.mutex.readers = 1 ∨ s.mutex.writerPending = false then
      some ({ s with mutex := { s.mutex with writer := true, writerPending := true } },
        some (.awaitReaders work))
    else some (s, some (.reacquire work))
  | .awaitReaders work =>
    if s.mutex.readers = 1 then
      some ({ s with mutex := { s.mutex with readers := 0, writerPending := false } },
        some (.locked work))
    else none
  | .reacquire work =>
    some ({ s with mutex := { s.mutex with readers := s.mutex.readers - 1 } },
      some (.lock work))
  | .lock work =>
    if s.mutex.busy then some (s, some (.loadPending work))
    else some ({ s with mutex := ⟨0, true, false⟩ }, some (.locked work))
  | .loadPending work =>
    some (s, some (if s.mutex.writerPending then .lock work else .setPending work))
  | .setPending work =>
    some ({ s with mutex := { s.mutex with writerPending := true } }, some (.lock work))
  | .locked work =>
    let (s, next) := s.perform work
    some (s, some next)
  | .setLimit =>
    s.writing.map fun softLimit => ({ s.setSoftLimit softLimit with writing := none }, some .unlock)
  | .unlock => some ({ s with mutex := { s.mutex with writer := false } }, none)
  | .exchange =>
    some ({ s with pendingDelta := pendingDeltaBase, batch := [] },
      some (.apply (s.pendingDelta % counterValue - pendingDeltaBase)))
  | .apply delta => some (s.applyDelta delta, none)

/-- A step. Fewer than `2 ^ 16` changes are collected at a time, and their sums stay in the
low half of the word. -/
def step (s : State) : Event → Option State
  | .update delta =>
    if s.batch.length + 1 < 65536 ∧ -32768 ≤ s.batch.sum + delta ∧ s.batch.sum + delta < 32768
    then some (s.update delta) else none
  | .registerMandatoryRequest mandatoryDelta =>
    some { s with jobs := s.jobs ++ [.lockShared mandatoryDelta] }
  | .setActiveNumWorkers softLimit =>
    some { s with jobs := s.jobs ++ [.lock (.setActiveNumWorkers softLimit)] }
  | .proceed i =>
    s.jobs[i]?.bind fun job => (s.proceed job).map fun (t, next) =>
      { t with jobs := next.elim (s.jobs.eraseIdx i) (s.jobs.set i) }

/-- The limit with regard to mandatory requests. -/
def effectiveLimit (s : State) : Int :=
  if s.limit = 0 ∧ 0 < s.numMandatoryRequests then 1 else s.limit

/-- A limit of zero is not set while mandatory concurrency is still enabled without a
mandatory request. -/
def Careful (s : State) : Event → Prop
  | .proceed i =>
    s.jobs[i]? = some (.locked (.setActiveNumWorkers 0)) → s.isMandatoryConcurrencyEnabled →
      0 < s.numMandatoryRequests
  | _ => True

instance (s : State) : (event : Event) → Decidable (s.Careful event)
  | .proceed _ => inferInstanceAs (Decidable (_ → _ → _))
  | .update _ | .registerMandatoryRequest _ | .setActiveNumWorkers _ => isTrue trivial

/-- Any interleaving of calls. -/
def Run : State → State → Prop :=
  ReflTransGen fun s t => ∃ event, s.step event = some t

/-- Any interleaving of calls that meet the condition. -/
def CarefulRun : State → State → Prop :=
  ReflTransGen fun s t => ∃ event, s.Careful event ∧ s.step event = some t

end State

/-! ### What is sent, and what is collected -/

/-- What a call has fetched and not yet applied. -/
def Job.fetched : Job → Int
  | .apply delta => delta
  | _ => 0

namespace State

/-- The dispatcher was sent the request or the limit, and every change is in the request, in
the hands of a call, or in the word, which some call is to fetch. -/
structure Counted (s : State) : Prop where
  sent : s.sent = min s.softLimit s.totalRequest
  requested : s.totalRequest + (s.jobs.map Job.fetched).sum + s.batch.sum = s.requested
  word : s.pendingDelta = pendingDeltaBase + s.batch.length * counterValue + s.batch.sum
  length : s.batch.length < 65536
  lower : -32768 ≤ s.batch.sum
  upper : s.batch.sum < 32768
  fetch : s.batch ≠ [] → .exchange ∈ s.jobs

theorem counted_create (softLimit : Nat) : (create softLimit).Counted where
  sent := (min_eq_right (Int.natCast_nonneg _)).symm
  requested := rfl
  word := by simp [create]
  length := by
    change 0 < 65536
    omega
  lower := by simp [create]
  upper := by simp [create]
  fetch := fun h => absurd rfl h

variable {s t : State}

/-- Nothing changes but what mandatory concurrency is about. -/
theorem Counted.congr (h : s.Counted) (hsent : t.sent = s.sent) (hsoft : t.softLimit = s.softLimit)
    (htotal : t.totalRequest = s.totalRequest) (hword : t.pendingDelta = s.pendingDelta)
    (hbatch : t.batch = s.batch) (hrequested : t.requested = s.requested)
    (hfetched : (t.jobs.map Job.fetched).sum = (s.jobs.map Job.fetched).sum)
    (hjobs : .exchange ∈ s.jobs → .exchange ∈ t.jobs) : t.Counted where
  sent := by rw [hsent, hsoft, htotal, h.sent]
  requested := by rw [htotal, hfetched, hbatch, hrequested, h.requested]
  word := by rw [hword, hbatch, h.word]
  length := hbatch ▸ h.length
  lower := hbatch ▸ h.lower
  upper := hbatch ▸ h.upper
  fetch := fun hne => hjobs (h.fetch (hbatch ▸ hne))

/-- The word is empty exactly if its low part reads as the base. -/
theorem Counted.signed_pendingDelta (h : s.Counted) :
    Word.signed s.pendingDelta = pendingDeltaBase ↔ s.batch = [] := by
  have hword := h.word
  have hlength := h.length
  have hlower := h.lower
  have hupper := h.upper
  unfold pendingDeltaBase counterValue at *
  unfold Word.signed
  constructor
  · intro hbase
    apply eq_nil_of_length_eq_zero
    omega
  · intro hempty
    rw [hempty] at hword
    simp only [length_nil, sum_nil] at hword
    omega

theorem Counted.update (h : s.Counted) {delta : Int} (hlength : s.batch.length + 1 < 65536)
    (hlower : -32768 ≤ s.batch.sum + delta) (hupper : s.batch.sum + delta < 32768) :
    (s.update delta).Counted := by
  have hword := h.word
  unfold pendingDeltaBase counterValue at hword
  constructor
  case sent => exact h.sent
  case requested =>
    have hfetched : ((s.update delta).jobs.map Job.fetched).sum =
        (s.jobs.map Job.fetched).sum := by
      unfold State.update
      dsimp only
      split_ifs <;> simp [Job.fetched]
    rw [hfetched]
    change s.totalRequest + _ + (delta :: s.batch).sum = s.requested + delta
    rw [sum_cons, ← h.requested]
    omega
  case word =>
    change (s.pendingDelta + counterValue + delta) % 18446744073709551616 =
      pendingDeltaBase + ((delta :: s.batch).length : Int) * counterValue + (delta :: s.batch).sum
    rw [length_cons, sum_cons]
    unfold pendingDeltaBase counterValue
    push_cast
    omega
  case length => exact hlength
  case lower =>
    change -32768 ≤ (delta :: s.batch).sum
    rw [sum_cons]
    omega
  case upper =>
    change (delta :: s.batch).sum < 32768
    rw [sum_cons]
    omega
  case fetch =>
    intro _
    unfold State.update
    dsimp only
    split_ifs with hbase
    · exact mem_append_right _ (mem_singleton_self _)
    · exact h.fetch fun hempty => hbase (h.signed_pendingDelta.mpr hempty)

theorem Counted.exchange (h : s.Counted) {i : Nat} (hi : s.jobs[i]? = some .exchange) :
    Counted { s with
      pendingDelta := pendingDeltaBase
      batch := []
      jobs := s.jobs.set i (.apply (s.pendingDelta % counterValue - pendingDeltaBase)) } := by
  have hdelta : s.pendingDelta % counterValue - pendingDeltaBase = s.batch.sum := by
    have hword := h.word
    have hl := h.lower
    have hu := h.upper
    unfold pendingDeltaBase counterValue at *
    omega
  constructor
  case sent => exact h.sent
  case requested =>
    change s.totalRequest + (List.map Job.fetched _).sum + 0 = s.requested
    rw [sum_map_set _ hi, hdelta, ← h.requested]
    change _ + (_ + (s.batch.sum - 0)) + 0 = _
    omega
  case word => simp
  case length =>
    change 0 < 65536
    omega
  case lower => exact (by decide : (-32768 : Int) ≤ 0)
  case upper => exact (by decide : (0 : Int) < 32768)
  case fetch => exact fun hne => absurd rfl hne

theorem Counted.apply (h : s.Counted) {i : Nat} {delta : Int}
    (hi : s.jobs[i]? = some (.apply delta)) :
    Counted { s.applyDelta delta with jobs := s.jobs.eraseIdx i } := by
  constructor
  case sent =>
    change s.sent + limitDelta delta s.softLimit (s.totalRequest + delta) =
      min s.softLimit (s.totalRequest + delta)
    unfold limitDelta
    rw [h.sent]
    dsimp only
    rw [add_sub_cancel_right]
    omega
  case requested =>
    change s.totalRequest + delta + (List.map Job.fetched _).sum + s.batch.sum = s.requested
    rw [sum_map_eraseIdx _ hi, ← h.requested]
    change _ + delta + (_ - delta) + _ = _
    omega
  case word => exact h.word
  case length => exact h.length
  case lower => exact h.lower
  case upper => exact h.upper
  case fetch => exact fun hne => mem_eraseIdx_of_ne hi (h.fetch hne) nofun

theorem Counted.setSoftLimit (h : s.Counted) (softLimit : Int) :
    Counted { s.setSoftLimit softLimit with writing := none } where
  sent := by
    change s.sent + limitDelta (softLimit - s.softLimit) s.totalRequest softLimit =
      min softLimit s.totalRequest
    unfold limitDelta
    rw [h.sent]
    dsimp only
    rw [sub_sub_cancel]
    omega
  requested := h.requested
  word := h.word
  length := h.length
  lower := h.lower
  upper := h.upper
  fetch := h.fetch


end State

end OneTbb.Scheduler.ThreadRequests
