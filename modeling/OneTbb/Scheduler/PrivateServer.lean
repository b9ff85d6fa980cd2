import OneTbb.Library.Positions
import OneTbb.Library.Transition

/-!
# The server of worker threads

The server's slack is the number of jobs that could use a thread less the number of
threads that are awake. A thread that raises the slack claims at most two units of it and
wakes as many sleeping workers; each of these does the same before it works. A worker
goes to sleep when the slack is negative, and raises it by one. The list of sleeping
workers has a mutex, the slack is changed without.
-/

namespace OneTbb.Scheduler.PrivateServer

open List Option Positions

/-- Where a thread is. A worker that waits to be notified is `parked`, and one that was
notified and has still to run `propagate_chain_reaction` is `woken`. A thread with the
mutex is `inside`. -/
inductive Thread where
  | running
  | trying
  | inside
  | parked
  | woken
  | claim (allottedSlack : Nat)
  | acquire (allottedSlack : Nat)
  | notify (wakee : List Nat)
  deriving DecidableEq, Repr

/-- What the owner of the mutex does next: insert itself into the list, or give back the
slack it could not use. -/
inductive Critical where
  | load (i : Nat)
  | exchange (i : Nat) (expected : Int)
  | store (i : Nat)
  | giveBack (i : Nat) (allottedSlack : Nat) (wakee : List Nat)
  deriving DecidableEq, Repr

/-- The owner of the mutex. -/
def Critical.thread : Critical → Nat
  | .load i | .exchange i _ | .store i | .giveBack i _ _ => i

structure State where
  slack : Int
  /-- The workers come first. -/
  threads : List Thread
  numWorkers : Nat
  asleepList : List Nat
  mutex : Option Critical
  /-- The sum of the changes of the job count. -/
  requested : Int
  deriving DecidableEq, Repr

inductive Event where
  | adjustJobCountEstimate (i : Nat) (delta : Int)
  | loop (i : Nat)
  | proceed (i : Nat)
  | critical
  deriving DecidableEq, Repr

namespace State

/-- All workers are in the list, and some other threads run. -/
def create (numWorkers others : Nat) : State where
  slack := 0
  threads := List.replicate numWorkers .parked ++ List.replicate others .running
  numWorkers := numWorkers
  asleepList := (List.range numWorkers).reverse
  mutex := none
  requested := 0

def setThread (s : State) (i : Nat) (t : Thread) : State := { s with threads := s.threads.set i t }

/-- A thread changes the estimate. It wakes workers if it raises it. -/
def adjustJobCountEstimate (s : State) (i : Nat) (delta : Int) : State :=
  let s := { s with requested := s.requested + delta }
  if delta < 0 then { s with slack := s.slack + delta }
  else if delta > 0 then { s with slack := s.slack + delta }.setThread i (.claim 0)
  else s

/-- A unit of slack is claimed if there is one. -/
def claim (s : State) (i allottedSlack : Nat) : State :=
  if s.slack ≤ 0 then
    s.setThread i (if allottedSlack = 0 then .running else .acquire allottedSlack)
  else
    { s with slack := s.slack - 1 }.setThread i
      (if allottedSlack + 1 < 2 then .claim (allottedSlack + 1) else .acquire (allottedSlack + 1))

/-- With the mutex: combine the claimed slack with sleeping workers. The ones taken last are
notified first. -/
def popAsleep (s : State) (i allottedSlack : Nat) : State :=
  let wakee := s.asleepList.take allottedSlack
  let left := allottedSlack - wakee.length
  let s := { s with asleepList := s.asleepList.drop allottedSlack }
  if left = 0 then s.setThread i (.notify wakee.reverse)
  else { s with mutex := some (.giveBack i left wakee.reverse) }.setThread i .inside

/-- The next step of a thread that is not inside a critical section. -/
def proceed (s : State) (i : Nat) : Thread → Option State
  | .trying =>
    some (match s.mutex with
      | none => { s with mutex := some (.load i) }.setThread i .inside
      | some _ => s.setThread i .running)
  | .woken => some (s.setThread i (if s.asleepList = [] then .running else .claim 0))
  | .claim allottedSlack => some (s.claim i allottedSlack)
  | .acquire allottedSlack => if s.mutex = none then some (s.popAsleep i allottedSlack) else none
  | .notify [] => some (s.setThread i .running)
  | .notify (w :: wakee) => some ((s.setThread i (.notify wakee)).setThread w .woken)
  | .running | .inside | .parked => none

/-- The next step of the owner of the mutex. -/
def critical (s : State) : Critical → State
  | .load i => { s with mutex := some (.exchange i s.slack) }
  | .exchange i expected =>
    if expected < 0 then
      if s.slack = expected then { s with slack := expected + 1, mutex := some (.store i) }
      else { s with mutex := some (.exchange i s.slack) }
    else { s with mutex := none }.setThread i .running
  | .store i => { s with asleepList := i :: s.asleepList, mutex := none }.setThread i .parked
  | .giveBack i allottedSlack wakee =>
    { s with slack := s.slack + allottedSlack, mutex := none }.setThread i (.notify wakee)

/-- A step. A worker in its loop works while the slack is not negative, and tries to sleep
otherwise. -/
def step (s : State) : Event → Option State
  | .adjustJobCountEstimate i delta =>
    if s.threads[i]? = some .running then some (s.adjustJobCountEstimate i delta) else none
  | .loop i =>
    if s.threads[i]? = some .running ∧ i < s.numWorkers then
      some (if s.slack ≥ 0 then s else s.setThread i .trying)
    else none
  | .proceed i => s.threads[i]?.bind (s.proceed i)
  | .critical => s.mutex.map s.critical

/-- Any interleaving. -/
def Run : State → State → Prop :=
  Relation.ReflTransGen fun s t => ∃ event, s.step event = some t

end State

/-! ### Slack is conserved -/

/-- Slack that was claimed and not yet used. -/
def Thread.claimed : Thread → Int
  | .claim n | .acquire n => n
  | _ => 0

def Critical.claimed : Critical → Int
  | .giveBack _ n _ => n
  | _ => 0

/-- The worker that has raised the slack and is about to enter the list. -/
def Critical.committed : Critical → Int
  | .store _ => 1
  | _ => 0

namespace State

/-- The workers that are not in the list. The list is of the workers that are asleep or
committed to sleep, so the worker that has raised the slack for itself counts as in it. -/
def awake (s : State) : Int :=
  s.numWorkers - s.asleepList.length - s.mutex.elim 0 Critical.committed

/-- The slack that threads inside `wake_some` have claimed and not yet used. -/
def claimedSlack (s : State) : Int :=
  (s.threads.map Thread.claimed).sum + s.mutex.elim 0 Critical.claimed

/-- Slack, workers awake and claimed units. -/
def balance (s : State) : Int := s.slack + s.awake + s.claimedSlack

theorem balance_create (numWorkers others : Nat) : (create numWorkers others).balance = 0 := by
  have hclaimed : ((create numWorkers others).threads.map Thread.claimed).sum = 0 := by
    simp [create, Thread.claimed]
  simp [balance, awake, claimedSlack, hclaimed]
  simp [create]

variable {s t : State} {i : Nat} {a b : Thread}

theorem balance_set (hi : s.threads[i]? = some a) (hthreads : t.threads = s.threads.set i b) :
    t.balance = t.slack + t.awake + ((s.threads.map Thread.claimed).sum +
      (b.claimed - a.claimed) + t.mutex.elim 0 Critical.claimed) := by
  unfold balance claimedSlack
  rw [hthreads, sum_map_set _ hi]

end State

/-! ### Workers that wait to be notified -/

/-- The workers a thread has taken from the list and is to notify. -/
def Thread.wakees : Thread → List Nat
  | .notify wakee => wakee
  | _ => []

def Critical.wakees : Critical → List Nat
  | .giveBack _ _ wakee => wakee
  | _ => []

namespace State

/-- The workers that are in the list or have been taken from it and not yet notified. -/
def waiting (s : State) : List Nat :=
  s.asleepList ++ (s.mutex.elim [] Critical.wakees ++ s.threads.flatMap Thread.wakees)

/-- A worker that waits to be notified does so once, and the owner of the mutex is inside. -/
structure Parking (s : State) : Prop where
  nodup : s.waiting.Nodup
  parked : ∀ w ∈ s.waiting, s.threads[w]? = some .parked
  inside : ∀ c, s.mutex = some c → s.threads[c.thread]? = some .inside

theorem waiting_create (numWorkers others : Nat) :
    (create numWorkers others).waiting = (List.range numWorkers).reverse := by
  have hnone : (create numWorkers others).threads.flatMap Thread.wakees = [] := by
    apply flatMap_eq_nil_iff.mpr
    intro t ht
    obtain ht | ht := mem_append.mp ht
    · rw [eq_of_mem_replicate ht]
      rfl
    · rw [eq_of_mem_replicate ht]
      rfl
  unfold waiting
  rw [hnone]
  exact append_nil _

theorem parking_create (numWorkers others : Nat) : (create numWorkers others).Parking where
  nodup := by
    rw [waiting_create]
    exact nodup_reverse.mpr nodup_range
  parked := by
    intro w hw
    rw [waiting_create, mem_reverse, mem_range] at hw
    change (List.replicate numWorkers Thread.parked ++ _)[w]? = _
    rw [List.getElem?_append_left (by simpa using hw), List.getElem?_replicate, if_pos hw]
  inside := nofun

variable {s t : State} {i : Nat} {a b : Thread}

theorem Parking.not_mem_waiting (h : s.Parking) (hi : s.threads[i]? = some a)
    (ha : a ≠ .parked) : i ∉ s.waiting := by
  intro hmem
  rw [h.parked i hmem] at hi
  exact ha (Option.some.inj hi).symm

/-- A thread that nobody is to notify changes its state. -/
theorem Parking.setThread (h : s.Parking) (hi : s.threads[i]? = some a) (hfree : i ∉ s.waiting)
    (hthreads : t.threads = s.threads.set i b) (hnodup : t.waiting.Nodup)
    (hwaiting : ∀ w ∈ t.waiting, w ∈ s.waiting ∨ w = i ∧ b = .parked)
    (hinside : ∀ c, t.mutex = some c → c.thread = i ∧ b = .inside ∨
      c.thread ≠ i ∧ ∃ c₀, s.mutex = some c₀ ∧ c₀.thread = c.thread) : t.Parking where
  nodup := hnodup
  parked := by
    intro w hw
    obtain hw | ⟨rfl, rfl⟩ := hwaiting w hw
    · have hne : i ≠ w := by
        rintro rfl
        exact hfree hw
      rw [hthreads, List.getElem?_set_ne hne]
      exact h.parked w hw
    · rw [hthreads, List.getElem?_set_self' , hi]
      rfl
  inside := by
    intro c hc
    obtain ⟨rfl, rfl⟩ | ⟨hne, c₀, hc₀, hsame⟩ := hinside c hc
    · rw [hthreads, List.getElem?_set_self', hi]
      rfl
    · rw [hthreads, List.getElem?_set_ne hne.symm, ← hsame]
      exact h.inside c₀ hc₀

theorem Parking.thread_ne (h : s.Parking) (hi : s.threads[i]? = some a) (ha : a ≠ .inside)
    {c : Critical} (hc : s.mutex = some c) : c.thread ≠ i := by
  rintro rfl
  rw [h.inside c hc] at hi
  exact ha (Option.some.inj hi).symm

theorem waiting_perm (hi : s.threads[i]? = some a) :
    s.waiting.Perm (s.asleepList ++ (s.mutex.elim [] Critical.wakees ++
      (a.wakees ++ (s.threads.eraseIdx i).flatMap Thread.wakees))) :=
  ((flatMap_perm _ hi).append_left _).append_left _

theorem waiting_set_perm (hi : s.threads[i]? = some a) (hthreads : t.threads = s.threads.set i b) :
    t.waiting.Perm (t.asleepList ++ (t.mutex.elim [] Critical.wakees ++
      (b.wakees ++ (s.threads.eraseIdx i).flatMap Thread.wakees))) := by
  unfold waiting
  rw [hthreads]
  exact ((flatMap_set_perm _ hi b).append_left _).append_left _

/-- A thread outside the critical sections changes its state and notifies as many. -/
theorem Parking.own (h : s.Parking) (hi : s.threads[i]? = some a) (ha : a ≠ .parked)
    (ha' : a ≠ .inside) (hwakees : b.wakees = a.wakees)
    (hthreads : t.threads = s.threads.set i b) (hlist : t.asleepList = s.asleepList)
    (hmutex : t.mutex = s.mutex) : t.Parking := by
  have hperm : t.waiting.Perm s.waiting := by
    refine (waiting_set_perm hi hthreads).trans (List.Perm.trans ?_ (waiting_perm hi).symm)
    rw [hlist, hmutex, hwakees]
  refine h.setThread hi (h.not_mem_waiting hi ha) hthreads (hperm.nodup_iff.mpr h.nodup)
    (fun w hw => .inl (hperm.mem_iff.mp hw)) fun c hc => .inr ?_
  rw [hmutex] at hc
  exact ⟨h.thread_ne hi ha' hc, c, hc, rfl⟩

end State

/-! ### Slack is noticed -/

/-- A thread that is about to claim slack, or to use what it has claimed. -/
def Thread.Urgent : Thread → Prop
  | .claim _ | .acquire _ => True
  | _ => False

/-- A thread that will look for slack itself, or wakes one that will. -/
def Thread.Active : Thread → Prop
  | .claim _ | .acquire _ | .woken | .notify (_ :: _) => True
  | _ => False

theorem Thread.Urgent.active {a : Thread} (h : a.Urgent) : a.Active := by
  cases a with
  | claim | acquire => trivial
  | _ => exact h.elim

namespace State

/-- Where slack meets sleeping workers, some thread is about to bring them together. -/
structure Alert (s : State) : Prop where
  acquire : ∀ n, .acquire n ∈ s.threads → 0 < n
  giveBack : ∀ i n wakee, s.mutex = some (.giveBack i n wakee) → s.asleepList = []
  urgent : ∀ i, s.mutex = some (.store i) → 0 < s.slack → ∃ t ∈ s.threads, t.Urgent
  active : 0 < s.slack → s.asleepList ≠ [] → ∃ t ∈ s.threads, t.Active

structure Sound (s : State) : Prop where
  parking : s.Parking
  balanced : s.balance = s.requested
  alert : s.Alert

theorem sound_create (numWorkers others : Nat) : (create numWorkers others).Sound where
  parking := parking_create numWorkers others
  balanced := balance_create numWorkers others
  alert := by
    refine ⟨fun n hn => ?_, nofun, nofun, fun hpos => absurd hpos (lt_irrefl _)⟩
    obtain hn | hn := mem_append.mp hn
    · cases eq_of_mem_replicate hn
    · cases eq_of_mem_replicate hn

variable {s t : State} {i : Nat} {a b : Thread}

/-- A new state of a thread does not wait for the mutex without slack. -/
theorem acquire_set (h : ∀ n, .acquire n ∈ s.threads → 0 < n) (hb : ∀ n, b = .acquire n → 0 < n)
    (hthreads : t.threads = s.threads.set i b) : ∀ n, .acquire n ∈ t.threads → 0 < n := by
  intro n hn
  rw [hthreads] at hn
  obtain hn | hn := mem_or_eq_of_mem_set hn
  · exact h n hn
  · exact hb n hn.symm

/-- A thread outside the critical sections changes its state and the slack. -/
theorem Sound.own (h : s.Sound) (hi : s.threads[i]? = some a) (ha : a ≠ .parked)
    (ha' : a ≠ .inside) (hwakees : b.wakees = a.wakees) (hb : ∀ n, b = .acquire n → 0 < n)
    (hthreads : t.threads = s.threads.set i b) (hlist : t.asleepList = s.asleepList)
    (hmutex : t.mutex = s.mutex) (hworkers : t.numWorkers = s.numWorkers)
    (hslack : t.slack + b.claimed - t.requested = s.slack + a.claimed - s.requested)
    (hurgent : 0 < t.slack → b.Urgent ∨ 0 < s.slack ∧ ¬ a.Urgent)
    (hactive : 0 < t.slack → s.asleepList ≠ [] → b.Active ∨ 0 < s.slack ∧ ¬ a.Active) :
    t.Sound := by
  obtain ⟨hlen, -⟩ := List.getElem?_eq_some_iff.mp hi
  have hmem : b ∈ t.threads := by
    rw [hthreads]
    exact mem_set hlen b
  constructor
  case parking => exact h.parking.own hi ha ha' hwakees hthreads hlist hmutex
  case balanced =>
    have hbalance := h.balanced
    rw [balance_set hi hthreads]
    unfold balance claimedSlack at hbalance
    unfold awake at hbalance ⊢
    rw [hlist, hmutex, hworkers]
    omega
  case alert =>
    refine ⟨acquire_set h.alert.acquire hb hthreads, ?_, ?_, ?_⟩
    · rw [hlist, hmutex]
      exact h.alert.giveBack
    · rw [hmutex]
      intro j hj hpos
      obtain hb | ⟨hold, hna⟩ := hurgent hpos
      · exact ⟨b, hmem, hb⟩
      · rw [hthreads]
        exact exists_mem_set hi (fun h => absurd h hna) (h.alert.urgent j hj hold)
    · rw [hlist]
      intro hpos hne
      obtain hb | ⟨hold, hna⟩ := hactive hpos hne
      · exact ⟨b, hmem, hb⟩
      · rw [hthreads]
        exact exists_mem_set hi (fun h => absurd h hna) (h.alert.active hold hne)

theorem Sound.adjustJobCountEstimate (h : s.Sound) (hi : s.threads[i]? = some .running)
    (delta : Int) : (s.adjustJobCountEstimate i delta).Sound := by
  have hsame : s.threads = s.threads.set i .running := by
    obtain ⟨hlen, hget⟩ := List.getElem?_eq_some_iff.mp hi
    rw [← hget, set_getElem_self]
  unfold State.adjustJobCountEstimate
  split_ifs with hneg hpos
  · refine h.own (b := .running) hi nofun nofun rfl nofun hsame rfl rfl rfl ?_ ?_ ?_
    · dsimp only
      omega
    · exact fun h => .inr ⟨by dsimp only at h; omega, nofun⟩
    · exact fun h _ => .inr ⟨by dsimp only at h; omega, nofun⟩
  · refine h.own (b := .claim 0) hi nofun nofun rfl nofun rfl rfl rfl rfl ?_
      (fun _ => .inl trivial) fun _ _ => .inl trivial
    change s.slack + delta + 0 - (s.requested + delta) = s.slack + 0 - s.requested
    omega
  · refine h.own (b := .running) hi nofun nofun rfl nofun hsame rfl rfl rfl ?_ ?_ ?_
    · dsimp only
      omega
    · exact fun h => .inr ⟨h, nofun⟩
    · exact fun h _ => .inr ⟨h, nofun⟩

theorem Sound.claim (h : s.Sound) {n : Nat} (hi : s.threads[i]? = some (.claim n)) :
    (s.claim i n).Sound := by
  unfold State.claim
  split_ifs with hslack hzero hmore
  · refine h.own (b := .running) hi nofun nofun rfl nofun rfl rfl rfl rfl ?_
      (fun hpos => absurd hpos (not_lt.mpr hslack)) fun hpos => absurd hpos (not_lt.mpr hslack)
    change s.slack + 0 - s.requested = s.slack + (n : Int) - s.requested
    omega
  · refine h.own (b := .acquire n) hi nofun nofun rfl (fun m hm => ?_) rfl rfl rfl rfl rfl
      (fun _ => .inl trivial) fun _ _ => .inl trivial
    cases hm
    omega
  · refine h.own (b := .claim (n + 1)) hi nofun nofun rfl nofun rfl rfl rfl rfl ?_
      (fun _ => .inl trivial) fun _ _ => .inl trivial
    change s.slack - 1 + ((n + 1 : Nat) : Int) - s.requested = s.slack + (n : Int) - s.requested
    omega
  · refine h.own (b := .acquire (n + 1)) hi nofun nofun rfl (fun m hm => ?_) rfl rfl rfl rfl ?_
      (fun _ => .inl trivial) fun _ _ => .inl trivial
    · cases hm
      omega
    · change s.slack - 1 + ((n + 1 : Nat) : Int) - s.requested = s.slack + (n : Int) - s.requested
      omega

theorem Sound.woken (h : s.Sound) (hi : s.threads[i]? = some .woken) :
    (s.setThread i (if s.asleepList = [] then .running else .claim 0)).Sound := by
  split_ifs with hempty
  · exact h.own (b := .running) hi nofun nofun rfl nofun rfl rfl rfl rfl rfl
      (fun hpos => .inr ⟨hpos, id⟩) fun _ hne => absurd hempty hne
  · exact h.own (b := .claim 0) hi nofun nofun rfl nofun rfl rfl rfl rfl rfl
      (fun _ => .inl trivial) fun _ _ => .inl trivial

/-- A thread takes or leaves the mutex, and what the owner of the mutex holds goes over. -/
theorem Sound.pass (h : s.Sound) (hi : s.threads[i]? = some a) (ha : a ≠ .parked)
    (hna : ¬ a.Active) (hb : ∀ n, b ≠ .acquire n) (hthreads : t.threads = s.threads.set i b)
    (hlist : t.asleepList = s.asleepList) (hworkers : t.numWorkers = s.numWorkers)
    (hwakees : t.mutex.elim [] Critical.wakees ++ b.wakees =
      s.mutex.elim [] Critical.wakees ++ a.wakees)
    (hinside : ∀ c, t.mutex = some c → c = .load i ∧ b = .inside)
    (hslack : t.slack - t.mutex.elim 0 Critical.committed +
        (b.claimed + t.mutex.elim 0 Critical.claimed) - t.requested =
      s.slack - s.mutex.elim 0 Critical.committed +
        (a.claimed + s.mutex.elim 0 Critical.claimed) - s.requested)
    (hactive : 0 < t.slack → s.asleepList ≠ [] → 0 < s.slack) : t.Sound := by
  have hperm : t.waiting.Perm s.waiting := by
    refine (waiting_set_perm hi hthreads).trans (List.Perm.trans ?_ (waiting_perm hi).symm)
    rw [hlist, ← append_assoc (t.mutex.elim [] _), hwakees, append_assoc]
  constructor
  case parking =>
    refine h.parking.setThread hi (h.parking.not_mem_waiting hi ha) hthreads
      (hperm.nodup_iff.mpr h.parking.nodup) (fun w hw => .inl (hperm.mem_iff.mp hw)) ?_
    intro c hc
    obtain ⟨rfl, hb⟩ := hinside c hc
    exact .inl ⟨rfl, hb⟩
  case balanced =>
    have hbalance := h.balanced
    rw [balance_set hi hthreads]
    unfold balance claimedSlack at hbalance
    unfold awake at hbalance ⊢
    rw [hlist, hworkers]
    omega
  case alert =>
    refine ⟨acquire_set h.alert.acquire (fun n hn => absurd hn (hb n)) hthreads,
      fun _ _ _ hm => absurd (hinside _ hm).1 nofun,
      fun _ hm => absurd (hinside _ hm).1 nofun, ?_⟩
    rw [hlist, hthreads]
    exact fun hpos hne => exists_mem_set hi (fun h => absurd h hna)
      (h.alert.active (hactive hpos hne) hne)

theorem Sound.enter (h : s.Sound) (hi : s.threads[i]? = some .trying) (hmutex : s.mutex = none) :
    ({ s with mutex := some (.load i) }.setThread i .inside).Sound := by
  refine h.pass (b := .inside) hi nofun id nofun rfl rfl rfl (by rw [hmutex]; rfl) ?_
    (by rw [hmutex]; rfl) fun hpos _ => hpos
  intro c hc
  cases hc
  exact ⟨rfl, rfl⟩

/-- The workers that are taken from the list are the ones the thread is to notify. -/
theorem drop_append_reverse_take_perm (l rest : List Nat) (n : Nat) :
    (l.drop n ++ ((l.take n).reverse ++ rest)).Perm (l ++ rest) := by
  rw [← append_assoc]
  refine List.Perm.append_right rest ?_
  have hswap : (l.drop n ++ (l.take n).reverse).Perm ((l.take n).reverse ++ l.drop n) :=
    perm_append_comm
  have hback : ((l.take n).reverse ++ l.drop n).Perm (l.take n ++ l.drop n) :=
    (reverse_perm _).append_right _
  rw [take_append_drop] at hback
  exact hswap.trans hback

section

variable (h : s.Sound)
include h

/-- Claimed slack is combined with sleeping workers, and what is left is given back when no
worker is left. -/
theorem Sound.popAsleep {n : Nat} (hi : s.threads[i]? = some (.acquire n))
    (hmutex : s.mutex = none) : (s.popAsleep i n).Sound := by
  have hpos := h.alert.acquire n (mem_of_getElem? hi)
  have hbalance := h.balanced
  unfold balance awake claimedSlack at hbalance
  rw [hmutex] at hbalance
  have htake : (s.asleepList.take n).length = min n s.asleepList.length := length_take
  have hdrop : (s.asleepList.drop n).length = s.asleepList.length - n := length_drop
  have hold := waiting_perm hi
  rw [hmutex] at hold
  unfold State.popAsleep
  dsimp only
  split_ifs with hleft
  · set u : State := { s with asleepList := s.asleepList.drop n }.setThread i
      (.notify (s.asleepList.take n).reverse) with hu
    have hperm : u.waiting.Perm s.waiting := by
      refine (waiting_set_perm hi rfl).trans (List.Perm.trans ?_ hold.symm)
      rw [show u.mutex = none from hmutex]
      exact drop_append_reverse_take_perm _ _ _
    constructor
    case parking =>
      refine h.parking.setThread hi (h.parking.not_mem_waiting hi nofun) rfl
        (hperm.nodup_iff.mpr h.parking.nodup) (fun w hw => .inl (hperm.mem_iff.mp hw)) ?_
      intro c hc
      rw [show u.mutex = none from hmutex] at hc
      cases hc
    case balanced =>
      rw [balance_set hi rfl]
      unfold awake
      rw [show u.mutex = none from hmutex]
      change s.slack + (s.numWorkers - ((s.asleepList.drop n).length : Int) - 0) +
        (_ + (0 - (n : Int)) + 0) = s.requested
      rw [hdrop]
      change s.slack + (s.numWorkers - s.asleepList.length - 0) + (_ + 0) = s.requested at hbalance
      omega
    case alert =>
      refine ⟨acquire_set (b := .notify (s.asleepList.take n).reverse) h.alert.acquire nofun rfl,
        fun j m ws hj => ?_, fun j hj => ?_, ?_⟩
      · rw [show u.mutex = none from hmutex] at hj
        cases hj
      · rw [show u.mutex = none from hmutex] at hj
        cases hj
      · intro _ hne
        obtain ⟨hlen, -⟩ := List.getElem?_eq_some_iff.mp hi
        refine ⟨_, mem_set hlen _, ?_⟩
        cases hrev : (s.asleepList.take n).reverse with
        | cons w ws => trivial
        | nil =>
          have := congrArg List.length hrev
          rw [length_reverse, length_nil] at this
          omega
  · set left := n - (s.asleepList.take n).length
    have hempty : s.asleepList.drop n = [] := by
      apply eq_nil_of_length_eq_zero
      omega
    set u : State := { s with
      asleepList := s.asleepList.drop n
      mutex := some (.giveBack i left (s.asleepList.take n).reverse) }.setThread i .inside with hu
    have hperm : u.waiting.Perm s.waiting := by
      refine (waiting_set_perm hi rfl).trans (List.Perm.trans ?_ hold.symm)
      exact drop_append_reverse_take_perm _ _ _
    constructor
    case parking =>
      refine h.parking.setThread hi (h.parking.not_mem_waiting hi nofun) rfl
        (hperm.nodup_iff.mpr h.parking.nodup) (fun w hw => .inl (hperm.mem_iff.mp hw)) ?_
      intro c hc
      cases hc
      exact .inl ⟨rfl, rfl⟩
    case balanced =>
      rw [balance_set hi rfl]
      change s.slack + (s.numWorkers - ((s.asleepList.drop n).length : Int) - 0) +
        (_ + (0 - (n : Int)) + (left : Int)) = s.requested
      rw [hdrop]
      change s.slack + (s.numWorkers - s.asleepList.length - 0) + (_ + 0) = s.requested at hbalance
      omega
    case alert =>
      exact ⟨acquire_set (b := .inside) h.alert.acquire nofun rfl, fun _ _ _ _ => hempty, nofun,
        fun _ hne => absurd hempty hne⟩

theorem Sound.notify {w : Nat} {ws : List Nat} (hi : s.threads[i]? = some (.notify (w :: ws))) :
    ((s.setThread i (.notify ws)).setThread w .woken).Sound := by
  have hold := waiting_perm hi
  have hmem : w ∈ s.waiting := by
    rw [hold.mem_iff]
    simp [Thread.wakees]
  have hw := h.parking.parked w hmem
  have hne : i ≠ w := by
    rintro rfl
    rw [hi] at hw
    cases hw
  set u := s.setThread i (.notify ws)
  have hperm : s.waiting.Perm (w :: u.waiting) := by
    refine hold.trans (List.Perm.trans ?_ ((waiting_set_perm (t := u) hi rfl).symm.cons w))
    have hmiddle : ∀ xs ys rest : List Nat,
        (xs ++ (ys ++ ((w :: ws) ++ rest))).Perm (w :: (xs ++ (ys ++ (ws ++ rest)))) := by
      intro xs ys rest
      rw [← append_assoc, cons_append, ← append_assoc xs]
      exact perm_middle
    exact hmiddle _ _ _
  have hnodup := hperm.nodup_iff.mp h.parking.nodup
  have hfree : w ∉ u.waiting := (nodup_cons.mp hnodup).1
  have hu : u.Parking := by
    refine h.parking.setThread hi (h.parking.not_mem_waiting hi nofun) rfl
      (nodup_cons.mp hnodup).2
      (fun v hv => .inl (hperm.mem_iff.mpr (mem_cons_of_mem _ hv))) fun c hc => ?_
    exact .inr ⟨h.parking.thread_ne hi nofun hc, c, hc, rfl⟩
  have huw : u.threads[w]? = some .parked := by
    change (s.threads.set i _)[w]? = _
    rw [List.getElem?_set_ne hne]
    exact hw
  have hperm' : (u.setThread w .woken).waiting.Perm u.waiting :=
    (waiting_set_perm (b := .woken) huw rfl).trans (waiting_perm huw).symm
  constructor
  case parking =>
    refine hu.setThread huw hfree rfl (hperm'.nodup_iff.mpr hu.nodup)
      (fun v hv => .inl (hperm'.mem_iff.mp hv)) fun c hc => ?_
    exact .inr ⟨hu.thread_ne huw nofun hc, c, hc, rfl⟩
  case balanced =>
    have hbalance := h.balanced
    have hclaimed : (u.threads.map Thread.claimed).sum = (s.threads.map Thread.claimed).sum := by
      change ((s.threads.set i (.notify ws)).map Thread.claimed).sum = _
      rw [sum_map_set _ hi]
      exact add_zero _
    rw [balance_set huw rfl, hclaimed]
    change s.slack + s.awake + (_ + (0 - 0) + s.mutex.elim 0 Critical.claimed) = s.requested
    rw [sub_self, add_zero]
    exact hbalance
  case alert =>
    obtain ⟨hlen, -⟩ := List.getElem?_eq_some_iff.mp huw
    have hacquire := acquire_set (t := u) (b := .notify ws) h.alert.acquire nofun rfl
    refine ⟨acquire_set (b := .woken) hacquire nofun rfl, h.alert.giveBack, fun j hj hpos => ?_,
      fun _ _ => ⟨.woken, mem_set hlen _, trivial⟩⟩
    apply exists_mem_set huw (fun h => h.elim)
    exact exists_mem_set hi (fun h => h.elim) (h.alert.urgent j hj hpos)

/-! ### The critical sections -/

theorem Sound.leave {expected : Int} (hc : s.mutex = some (.exchange i expected)) :
    ({ s with mutex := none }.setThread i .running).Sound :=
  h.pass (b := .running) (h.parking.inside _ hc) nofun id nofun rfl rfl rfl (by rw [hc]; rfl)
    nofun (by rw [hc]; rfl) fun hpos _ => hpos

/-- The owner of the mutex stays inside and neither the list nor the slack claimed changes. -/
theorem Sound.stay {c d : Critical} (hc : s.mutex = some c)
    (hthread : d.thread = c.thread) (hwakees : d.wakees = c.wakees)
    (hthreads : t.threads = s.threads) (hlist : t.asleepList = s.asleepList)
    (hmutex : t.mutex = some d) (hbalanced : t.balance = t.requested)
    (hback : ∀ i n ws, d ≠ .giveBack i n ws)
    (hurgent : ∀ i, d = .store i → 0 < t.slack → False) (hslack : 0 < t.slack → 0 < s.slack) :
    t.Sound := by
  have hwaiting : t.waiting = s.waiting := by
    unfold waiting
    rw [hthreads, hlist, hmutex, hc, elim_some, elim_some, hwakees]
  constructor
  case parking =>
    refine ⟨hwaiting ▸ h.parking.nodup, fun w hw => ?_, fun c₁ hc₁ => ?_⟩
    · rw [hthreads]
      exact h.parking.parked w (hwaiting ▸ hw)
    · cases hmutex.symm.trans hc₁
      rw [hthreads, hthread]
      exact h.parking.inside c hc
  case balanced => exact hbalanced
  case alert =>
    refine ⟨hthreads ▸ h.alert.acquire, fun i n ws hm => ?_, fun i hm hpos => ?_, ?_⟩
    · exact absurd (Option.some.inj (hmutex.symm.trans hm)) (hback i n ws)
    · exact (hurgent i (Option.some.inj (hmutex.symm.trans hm)) hpos).elim
    · rw [hthreads, hlist]
      exact fun hpos hne => h.alert.active (hslack hpos) hne

theorem Sound.store (hc : s.mutex = some (.store i)) :
    (s.critical (.store i)).Sound := by
  have hi := h.parking.inside _ hc
  have hi' : s.threads[i]? = some .inside := hi
  have hfree := h.parking.not_mem_waiting hi' nofun
  have hperm : (s.critical (.store i)).waiting.Perm (i :: s.waiting) := by
    refine (waiting_set_perm (b := .parked) hi' rfl).trans
      (List.Perm.trans ?_ ((waiting_perm hi').symm.cons i))
    rw [hc]
    exact List.Perm.refl _
  constructor
  case parking =>
    refine h.parking.setThread (b := .parked) hi' hfree rfl
      (hperm.nodup_iff.mpr (nodup_cons.mpr ⟨hfree, h.parking.nodup⟩)) (fun w hw => ?_) nofun
    obtain rfl | hw := mem_cons.mp (hperm.mem_iff.mp hw)
    · exact .inr ⟨rfl, rfl⟩
    · exact .inl hw
  case balanced =>
    have hbalance := h.balanced
    unfold balance awake claimedSlack at hbalance
    rw [hc] at hbalance
    rw [balance_set (b := .parked) hi' rfl]
    change s.slack + (s.numWorkers - ((i :: s.asleepList).length : Int) - 0) +
      (_ + (0 - 0) + 0) = s.requested
    rw [length_cons]
    change s.slack + (s.numWorkers - s.asleepList.length - 1) + (_ + 0) = s.requested at hbalance
    omega
  case alert =>
    refine ⟨acquire_set (b := .parked) h.alert.acquire nofun rfl, nofun, nofun, fun hpos _ => ?_⟩
    obtain ⟨t, ht, hurgent⟩ := h.alert.urgent i hc hpos
    exact exists_mem_set hi' (fun h => h.elim) ⟨t, ht, hurgent.active⟩

/-- The slack that could not be used is given back while the list is empty. -/
theorem Sound.giveBack {n : Nat} {ws : List Nat}
    (hc : s.mutex = some (.giveBack i n ws)) : (s.critical (.giveBack i n ws)).Sound := by
  refine h.pass (b := .notify ws) (h.parking.inside _ hc) nofun id nofun rfl rfl rfl
    (by rw [hc]; exact (append_nil ws).symm) nofun ?_
    fun _ hne => absurd (h.alert.giveBack i n ws hc) hne
  rw [hc]
  change s.slack + (n : Int) - 0 + (0 + 0) - s.requested = s.slack - 0 + (0 + n) - s.requested
  omega

theorem Sound.critical {c : Critical} (hc : s.mutex = some c) :
    (s.critical c).Sound := by
  have hbalance := h.balanced
  unfold balance awake claimedSlack at hbalance
  rw [hc] at hbalance
  cases c with
  | load i =>
    exact h.stay hc (d := .exchange i s.slack) rfl rfl rfl rfl rfl hbalance nofun nofun id
  | exchange i expected =>
    simp only [State.critical]
    split_ifs with hneg hsame
    · refine h.stay hc (d := .store i) rfl rfl rfl rfl rfl ?_ nofun (fun _ _ hpos => ?_)
        fun hpos => ?_
      · change expected + 1 + (s.numWorkers - s.asleepList.length - 1) +
          ((s.threads.map Thread.claimed).sum + 0) = s.requested
        rw [hsame] at hbalance
        change expected + (s.numWorkers - s.asleepList.length - 0) +
          ((s.threads.map Thread.claimed).sum + 0) = s.requested at hbalance
        omega
      · dsimp only at hpos
        omega
      · dsimp only at hpos
        omega
    · exact h.stay hc (d := .exchange i s.slack) rfl rfl rfl rfl rfl hbalance nofun nofun id
    · exact h.leave hc
  | store i => exact h.store hc
  | giveBack i n ws => exact h.giveBack hc

theorem Sound.proceed (hi : s.threads[i]? = some a) (ht : s.proceed i a = some t) :
    t.Sound := by
  cases a with
  | trying =>
    cases ht
    cases hmutex : s.mutex with
    | none => exact h.enter hi hmutex
    | some c =>
      exact h.own (b := .running) hi nofun nofun rfl nofun rfl rfl rfl rfl rfl
        (fun hpos => .inr ⟨hpos, id⟩) fun hpos _ => .inr ⟨hpos, id⟩
  | woken =>
    cases ht
    exact h.woken hi
  | claim n =>
    cases ht
    exact h.claim hi
  | acquire n =>
    obtain ⟨hmutex, ht⟩ := ite_none_right_eq_some.mp ht
    cases ht
    exact h.popAsleep hi hmutex
  | notify ws =>
    cases ws with
    | nil =>
      cases ht
      exact h.own (b := .running) hi nofun nofun rfl nofun rfl rfl rfl rfl rfl
        (fun hpos => .inr ⟨hpos, id⟩) fun hpos _ => .inr ⟨hpos, id⟩
    | cons w ws =>
      cases ht
      exact h.notify hi
  | running | inside | parked => cases ht

theorem Sound.step {event : Event} (ht : s.step event = some t) : t.Sound := by
  cases event with
  | adjustJobCountEstimate i delta =>
    obtain ⟨hi, ht⟩ := ite_none_right_eq_some.mp ht
    cases ht
    exact h.adjustJobCountEstimate hi delta
  | loop i =>
    obtain ⟨⟨hi, -⟩, ht⟩ := ite_none_right_eq_some.mp ht
    cases ht
    split_ifs
    · exact h
    · exact h.own (b := .trying) hi nofun nofun rfl nofun rfl rfl rfl rfl rfl
        (fun hpos => .inr ⟨hpos, id⟩) fun hpos _ => .inr ⟨hpos, id⟩
  | proceed i =>
    obtain ⟨a, hi, ht⟩ := bind_eq_some_iff.mp ht
    exact h.proceed hi ht
  | critical =>
    obtain ⟨c, hc, rfl⟩ := map_eq_some_iff.mp ht
    exact h.critical hc

end

theorem sound_of_run {numWorkers others : Nat} (run : (create numWorkers others).Run s) :
    s.Sound :=
  Transition.run_preserves (fun _ _ h ⟨_, hstep⟩ => h.step hstep) run
    (sound_create numWorkers others)

/-- No thread is inside `wake_some`, and no worker that was taken from the list has still to
run `propagate_chain_reaction`. -/
structure Quiet (s : State) : Prop where
  outside : ∀ t ∈ s.threads, t = .running ∨ t = .trying ∨ t = .inside ∨ t = .parked
  noGiveBack : ∀ i n wakee, s.mutex ≠ some (.giveBack i n wakee)

end State

/-- In every interleaving the slack, the workers that are not in the list and the units that
are claimed and not yet used sum up to the changes of the job count. When no thread is in
`wake_some` or has to look for slack, no worker sleeps while there is slack. -/
theorem private_server_wakes_workers (numWorkers others : Nat) {s : State}
    (run : (State.create numWorkers others).Run s) :
    s.slack + s.awake + s.claimedSlack = s.requested ∧
      (s.Quiet → 0 < s.slack → s.asleepList = []) := by
  have hsound := State.sound_of_run run
  refine ⟨hsound.balanced, fun hquiet hpos => ?_⟩
  by_contra hne
  obtain ⟨t, ht, hactive⟩ := hsound.alert.active hpos hne
  obtain rfl | rfl | rfl | rfl := hquiet.outside t ht <;> exact hactive

/-- Three jobs come and two workers are woken by the thread that announces them; the one that
is woken first wakes the third. -/
def wakeThree : List Event :=
  [.adjustJobCountEstimate 3 3, .proceed 3, .proceed 3, .proceed 3, .proceed 3, .proceed 3,
    .proceed 3, .proceed 1, .proceed 1, .proceed 1, .proceed 1, .proceed 1, .proceed 1,
    .proceed 0, .proceed 2]

theorem private_server_wakes_workers_three : ∃ s : State,
    (State.create 3 1).Run s ∧ s.asleepList = [] ∧ s.claimedSlack = 0 ∧ s.slack = 0 := by
  have hevents : (wakeThree.foldlM State.step (State.create 3 1)).map (fun s =>
      (s.asleepList, s.mutex, s.numWorkers, s.claimedSlack, s.requested)) =
        some ([], none, 3, 0, 3) := by
    decide +kernel
  obtain ⟨s, hs, hread⟩ := map_eq_some_iff.mp hevents
  simp only [Prod.mk.injEq] at hread
  obtain ⟨hlist, hmutex, hworkers, hclaimed, hrequested⟩ := hread
  have run : (State.create 3 1).Run s := Transition.run_of_foldlM hs
  have hbalance := (private_server_wakes_workers 3 1 run).1
  rw [State.awake, hlist, hmutex, hworkers, hclaimed, hrequested] at hbalance
  refine ⟨s, run, hlist, hclaimed, ?_⟩
  simpa using hbalance

end OneTbb.Scheduler.PrivateServer
