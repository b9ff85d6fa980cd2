import OneTbb.Scheduler.Allotment

/-!
# The market over any number of calls

The demands of the levels are kept by adding up changes, and a client that comes or
goes without demand changes none of the sums. So after every call the workers are
handed out as the demands of that moment ask for.
-/

namespace OneTbb.Scheduler

open List Option Positions

theorem Served.set {levels : List PriorityList} {l : Nat} {level new : PriorityList}
    (h : Served levels) (hl : levels[l]? = some level) (hworkers : new.workers = level.workers)
    (hrequested : new.requested = level.requested)
    (hfair : ∀ c ∈ new.clients, Fair level.workers level.requested c) :
    Served (levels.set l new) where
  fair := by
    intro level' hmem
    obtain hmem | rfl := mem_or_eq_of_mem_set hmem
    · exact h.fair level' hmem
    · rw [hworkers, hrequested]
      exact hfair
  ordered := by
    have hmap : (levels.set l new).map (fun level => (level.workers, level.requested)) =
        levels.map fun level => (level.workers, level.requested) :=
      map_set_eq hl (Prod.ext hworkers hrequested)
    have hread : ∀ ls : List PriorityList,
        ls.Pairwise (fun high low => 0 < low.workers → high.workers = high.requested) ↔
          (ls.map fun level => (level.workers, level.requested)).Pairwise
            fun high low => 0 < low.1 → high.1 = high.2 := by
      intro ls
      rw [pairwise_map]
    rw [hread, hmap, ← hread]
    exact h.ordered

namespace Market

/-- The demands are counted, and with a positive limit the workers are handed out. -/
structure Sound (m : Market) : Prop where
  counted : ∀ level ∈ m.levels, Counted level
  total : m.totalDemand = m.requested
  workers : 0 < m.numWorkersSoftLimit → m.workers = min m.requested m.numWorkersSoftLimit
  served : 0 < m.numWorkersSoftLimit → Served m.levels

theorem sound_create (workersSoftLimit : Int) : (create workersSoftLimit).Sound where
  counted := by
    intro level hlevel
    obtain rfl := eq_of_mem_replicate hlevel
    exact ⟨rfl, nofun⟩
  total := rfl
  workers := by
    intro hlimit
    exact (min_eq_left hlimit.le).symm
  served := by
    intro _
    constructor
    case fair =>
      intro level hlevel
      obtain rfl := eq_of_mem_replicate hlevel
      exact nofun
    case ordered => exact pairwise_replicate.mpr (.inr fun _ => rfl)

theorem requested_nonneg {m : Market} (hcounted : ∀ level ∈ m.levels, Counted level) :
    0 ≤ m.requested := by
  apply sum_nonneg
  intro n hn
  obtain ⟨level, hlevel, rfl⟩ := mem_map.mp hn
  exact (hcounted level hlevel).requested_nonneg

/-- The workers are handed out as the demands ask for. -/
theorem sound_updateAllotment {m : Market} (hcounted : ∀ level ∈ m.levels, Counted level)
    (htotal : m.totalDemand = m.requested) : m.updateAllotment.Sound := by
  have hrequested : m.updateAllotment.requested = m.requested :=
    congrArg sum (updateLevels_requested m m.progress 0 m.levels)
  have hshare : 0 < m.numWorkersSoftLimit →
      m.updateAllotment.workers = min m.requested m.numWorkersSoftLimit ∧
        Served m.updateAllotment.levels := by
    intro hlimit
    have hmax : m.maxWorkers = min m.requested m.numWorkersSoftLimit := by
      unfold maxWorkers effectiveSoftLimit
      rw [htotal, if_neg fun h => hlimit.ne' h.2]
    have hnonneg := requested_nonneg hcounted
    obtain ⟨hsum, hserved⟩ := updateLevels_share hlimit.ne' hcounted (p := m.progress) 0
      (le_of_le_of_eq (le_min hnonneg hlimit.le) hmax.symm) rfl
    refine ⟨hsum.trans ?_, hserved⟩
    rw [show m.progress.unassignedWorkers = m.maxWorkers from rfl, hmax, ← min_assoc]
    exact congrArg (min · _) (min_self _)
  constructor
  case counted => exact updateLevels_counted m hcounted m.progress 0
  case total => exact htotal.trans hrequested.symm
  case workers =>
    intro hlimit
    rw [hrequested]
    exact (hshare hlimit).1
  case served => exact fun hlimit => (hshare hlimit).2

variable {m m' : Market}

theorem Sound.registerClient (h : m.Sound) {l : Nat} {c : Client} (hmax : c.maxWorkers = 0)
    (hallotment : c.allotment = 0) (hm : m.registerClient l c = some m') : m'.Sound := by
  obtain ⟨level, hl, rfl⟩ := map_eq_some_iff.mp hm
  have hlevel := h.counted level (mem_of_getElem? hl)
  set new : PriorityList := { level with clients := level.clients ++ [c] } with hnew
  have hrequested : new.requested = level.requested := by
    simp [hnew, PriorityList.requested, hmax]
  have hworkers : new.workers = level.workers := by
    simp [hnew, PriorityList.workers, hallotment]
  have hsame : ((m.levels.set l new).map (·.requested)).sum = m.requested :=
    congrArg sum (map_set_eq hl hrequested)
  constructor
  case counted =>
    intro level' hmem
    obtain hmem | rfl := mem_or_eq_of_mem_set hmem
    · exact h.counted level' hmem
    · refine ⟨hlevel.demand.trans hrequested.symm, fun c' hc' => ?_⟩
      obtain hc' | hc' := mem_append.mp hc'
      · exact hlevel.nonneg c' hc'
      · rw [mem_singleton.mp hc', hmax]
  case total => exact h.total.trans hsame.symm
  case workers =>
    intro hlimit
    exact (congrArg sum (map_set_eq hl hworkers)).trans
      ((h.workers hlimit).trans (congrArg (min · _) hsame.symm))
  case served =>
    intro hlimit
    refine (h.served hlimit).set hl hworkers hrequested fun c' hc' => ?_
    obtain hc' | hc' := mem_append.mp hc'
    · exact (h.served hlimit).fair level (mem_of_getElem? hl) c' hc'
    · obtain rfl := mem_singleton.mp hc'
      exact Fair.of_zero hallotment hmax

theorem Sound.unregisterAndDestroyClient (h : m.Sound) {l i : Nat} {c : Client}
    (hc : m.client l i = some c) (hmax : c.maxWorkers = 0)
    (hm : m.unregisterAndDestroyClient l i = some m') : m'.Sound := by
  obtain ⟨level, hl, hm⟩ := bind_eq_some_iff.mp hm
  obtain ⟨c', hi, rfl⟩ := map_eq_some_iff.mp hm
  obtain rfl : c' = c := by
    unfold client at hc
    rw [hl, bind_some, hi] at hc
    exact some.inj hc
  have hmem := mem_of_getElem? hl
  have hlevel := h.counted level hmem
  set new : PriorityList := { level with clients := level.clients.eraseIdx i } with hnew
  have hrequested : new.requested = level.requested := by
    unfold PriorityList.requested
    rw [sum_map_eraseIdx _ hi, hmax, sub_zero]
  have hsame : ((m.levels.set l new).map (·.requested)).sum = m.requested :=
    congrArg sum (map_set_eq hl hrequested)
  have hworkers : 0 < m.numWorkersSoftLimit → new.workers = level.workers := by
    intro hlimit
    -- with no demand the client has no workers either
    have hfair := (h.served hlimit).fair level hmem c' (mem_of_getElem? hi)
    have hnone : c'.allotment = 0 := le_antisymm (hmax ▸ hfair.le) hfair.nonneg
    unfold PriorityList.workers
    rw [sum_map_eraseIdx _ hi, hnone, sub_zero]
  constructor
  case counted =>
    intro level' hmem
    obtain hmem | rfl := mem_or_eq_of_mem_set hmem
    · exact h.counted level' hmem
    · exact ⟨hlevel.demand.trans hrequested.symm,
        fun c hc => hlevel.nonneg c (mem_of_mem_eraseIdx hc)⟩
  case total => exact h.total.trans hsame.symm
  case workers =>
    intro hlimit
    exact (congrArg sum (map_set_eq hl (hworkers hlimit))).trans
      ((h.workers hlimit).trans (congrArg (min · _) hsame.symm))
  case served =>
    intro hlimit
    exact (h.served hlimit).set hl (hworkers hlimit) hrequested fun c hc =>
      (h.served hlimit).fair level hmem c (mem_of_mem_eraseIdx hc)

theorem Sound.countRequest (h : m.Sound) {l i : Nat} {mandatoryDelta workersDelta : Int}
    (hm : m.countRequest l i mandatoryDelta workersDelta = some m') :
    (∀ level ∈ m'.levels, Counted level) ∧ m'.totalDemand = m'.requested := by
  obtain ⟨level, hl, hm⟩ := bind_eq_some_iff.mp hm
  obtain ⟨c, hi, rfl⟩ := map_eq_some_iff.mp hm
  have hlevel := h.counted level (mem_of_getElem? hl)
  have hdelta := c.updateRequest_delta mandatoryDelta workersDelta
  have hnonneg := c.updateRequest_nonneg mandatoryDelta workersDelta
  set request := c.updateRequest mandatoryDelta workersDelta
  have hrequested : PriorityList.requested ⟨level.demand + request.2,
      level.clients.set i request.1⟩ = level.requested + request.2 := by
    unfold PriorityList.requested
    rw [sum_map_set _ hi, hdelta]
    omega
  constructor
  · intro level' hmem
    obtain hmem | rfl := mem_or_eq_of_mem_set hmem
    · exact h.counted level' hmem
    · constructor
      case demand => rw [hrequested, hlevel.demand]
      case nonneg =>
        intro c' hc'
        obtain hc' | rfl := mem_or_eq_of_mem_set hc'
        · exact hlevel.nonneg c' hc'
        · exact hnonneg
  · change m.totalDemand + request.2 = (map _ (m.levels.set l _)).sum
    rw [sum_map_set _ hl, hrequested, h.total]
    unfold requested
    omega

theorem Sound.setActiveNumWorkers (h : m.Sound) (softLimit : Int) :
    (m.setActiveNumWorkers softLimit).Sound := by
  unfold Market.setActiveNumWorkers
  split_ifs
  · exact sound_updateAllotment h.counted h.total
  · exact h

theorem Sound.step (h : m.Sound) {call : Call} (hm : m.step call = some m') : m'.Sound := by
  cases call with
  | registerClient l numSlots numReservedSlots => exact h.registerClient rfl rfl hm
  | unregisterAndDestroyClient l i =>
    obtain ⟨hallowed, hm⟩ := ite_none_right_eq_some.mp hm
    obtain ⟨c, hc, hmax⟩ : ∃ c, m.client l i = some c ∧ c.maxWorkers = 0 := by
      cases hc : m.client l i with
      | none => simp [hc] at hallowed
      | some c => exact ⟨c, rfl, by simpa [hc] using hallowed⟩
    exact h.unregisterAndDestroyClient hc hmax hm
  | adjustDemand l i mandatoryDelta workersDelta =>
    obtain ⟨-, hm⟩ := ite_none_right_eq_some.mp hm
    obtain ⟨m₁, hcount, rfl⟩ := map_eq_some_iff.mp hm
    obtain ⟨hcounted, htotal⟩ := h.countRequest hcount
    exact sound_updateAllotment hcounted htotal
  | setActiveNumWorkers softLimit =>
    cases hm
    exact h.setActiveNumWorkers softLimit

theorem Sound.run (h : m.Sound) (run : m.Run m') : m'.Sound :=
  Transition.run_preserves (fun _ _ h ⟨_, hstep⟩ => h.step hstep) run h

end Market

/-- After any calls, with a positive limit, the workers handed out are as many as are
asked for or as the limit allows. No client has more than it asks for, a level has
workers only if the levels above have all they ask for, and a client's workers are less
than one away from its part of the workers of its level. -/
theorem market_shares_workers (workersSoftLimit : Int) {m : Market}
    (run : (Market.create workersSoftLimit).Run m) (hlimit : 0 < m.numWorkersSoftLimit) :
    m.workers = min m.requested m.numWorkersSoftLimit ∧
      (∀ level ∈ m.levels, ∀ c ∈ level.clients, c.allotment ≤ c.maxWorkers) ∧
      (m.levels.Pairwise fun high low => 0 < low.workers → high.workers = high.requested) ∧
      ∀ level ∈ m.levels, ∀ c ∈ level.clients,
        |(c.allotment : ℚ) - c.maxWorkers * level.workers / level.requested| < 1 := by
  have hsound := (Market.sound_create workersSoftLimit).run run
  have hserved := hsound.served hlimit
  exact ⟨hsound.workers hlimit, fun level hl c hc => (hserved.fair level hl c hc).le,
    hserved.ordered, fun level hl c hc => (hserved.fair level hl c hc).near⟩

/-- Two arenas of one level ask for three and two workers, and one of the next level for
one. -/
def threeArenas : List Call :=
  [.registerClient 0 4 1, .registerClient 0 3 1, .registerClient 1 2 1,
    .adjustDemand 1 0 0 1, .adjustDemand 0 0 0 3, .adjustDemand 0 1 0 2, .setActiveNumWorkers 3]

/-- Three workers go to the higher level, two of them to the arena that asks for three. -/
theorem market_shares_workers_three : ∃ m : Market,
    (Market.create 8).Run m ∧ m.numWorkersSoftLimit = 3 ∧
      m.levels.map (fun level => level.clients.map (·.allotment)) = [[2, 1], [0], []] ∧
      m.workers = min m.requested m.numWorkersSoftLimit := by
  have hcalls : (threeArenas.foldlM Market.step (Market.create 8)).map (fun m =>
      (m.numWorkersSoftLimit, m.levels.map fun level => level.clients.map (·.allotment))) =
        some (3, [[2, 1], [0], []]) := by
    decide +kernel
  obtain ⟨m, hm, hread⟩ := map_eq_some_iff.mp hcalls
  obtain ⟨hlimit, hallotments⟩ := Prod.ext_iff.mp hread
  have hlimit : m.numWorkersSoftLimit = 3 := hlimit
  have run : (Market.create 8).Run m := Transition.run_of_foldlM hm
  exact ⟨m, run, hlimit, hallotments, (market_shares_workers 8 run (by omega)).1⟩

end OneTbb.Scheduler
