import OneTbb.Scheduler.MarketRun
import OneTbb.Scheduler.DemandRun

/-!
# Mandatory work when no workers are allowed

With a limit of zero the market gives one worker to an arena with mandatory work. It
counts the worker as soon as anybody asks for one, and gives it only to a client that
has a mandatory request and asks for workers. External threads in an arena lower what
the arena asks for, so the two need not agree.
-/

namespace OneTbb.Scheduler

open List Function

/-- A client that can get the worker for mandatory work. -/
def Client.Eligible (c : Client) : Prop := 0 < c.minWorkers ∧ c.maxWorkers ≠ 0

theorem eligible_iff_of_bare {c c' : Client} (h : bare c = bare c') :
    c.Eligible ↔ c'.Eligible := by
  have hmin := congrArg Client.minWorkers h
  have hmax := congrArg Client.maxWorkers h
  exact and_congr (by rw [show c.minWorkers = c'.minWorkers from hmin])
    (by rw [show c.maxWorkers = c'.maxWorkers from hmax])

/-- What a client has under a limit of zero. -/
structure Client.Restricted (c : Client) : Prop where
  nonneg : 0 ≤ c.allotment
  mandatory : 0 < c.allotment → 0 < c.minWorkers
  idle : c.maxWorkers = 0 → c.allotment = 0

section Loop

variable {d : LevelData} (hlimit : d.numWorkersSoftLimit = 0) (hmax : d.maxWorkers ≤ 1)

include hlimit

theorem updateClient_restricted (p : Progress) (c : Client) :
    (updateClient d p c).1.Restricted := by
  unfold updateClient
  split_ifs with hzero hgive
  · exact ⟨by simp, by simp, by simp⟩
  · exact ⟨by simp, fun _ => hgive.1, fun h => absurd h hzero⟩
  · exact ⟨by simp, by simp, by simp⟩

theorem updateClients_restricted (p : Progress) (cs : List Client) :
    ∀ c ∈ (updateClients d p cs).1, c.Restricted := by
  induction cs generalizing p with
  | nil => exact nofun
  | cons c rest ih =>
    rw [updateClients_cons]
    intro c' hc'
    obtain rfl | hc' := mem_cons.mp hc'
    · exact updateClient_restricted hlimit p c
    · exact ih _ c' hc'

include hmax

/-- The first client that is eligible gets the worker. -/
theorem updateClient_assigned_zero {p : Progress} (hp : 0 ≤ p.assigned)
    (hle : p.assigned ≤ d.maxWorkers) (c : Client) :
    (c.Eligible → (updateClient d p c).2.assigned = d.maxWorkers) ∧
      (¬ c.Eligible → (updateClient d p c).2.assigned = p.assigned) := by
  unfold updateClient Client.Eligible
  split_ifs with hzero hgive
  · exact ⟨fun h => absurd hzero h.2, fun _ => rfl⟩
  · refine ⟨fun _ => ?_, fun h => absurd ⟨hgive.1, hzero⟩ h⟩
    change p.assigned + 1 = d.maxWorkers
    omega
  · refine ⟨fun h => ?_, fun _ => add_zero _⟩
    have hfull : ¬ p.assigned < d.maxWorkers := fun hlt => hgive ⟨h.1, hlt⟩
    change p.assigned + 0 = d.maxWorkers
    omega

theorem updateClients_assigned_zero {p : Progress} (hp : 0 ≤ p.assigned)
    (hle : p.assigned ≤ d.maxWorkers) (cs : List Client) :
    ((∃ c ∈ cs, c.Eligible) → (updateClients d p cs).2.assigned = d.maxWorkers) ∧
      ((¬ ∃ c ∈ cs, c.Eligible) → (updateClients d p cs).2.assigned = p.assigned) := by
  induction cs generalizing p with
  | nil => exact ⟨nofun, fun _ => rfl⟩
  | cons c rest ih =>
    obtain ⟨hgive, hskip⟩ := updateClient_assigned_zero hlimit hmax hp hle c
    rw [updateClients_cons]
    simp only [mem_cons, exists_eq_or_imp]
    by_cases hc : c.Eligible
    · have hfull := hgive hc
      obtain ⟨hsome, hnone⟩ := ih (p := (updateClient d p c).2) (by omega) (by omega)
      refine ⟨fun _ => ?_, fun h => absurd (.inl hc) h⟩
      by_cases hrest : ∃ c ∈ rest, c.Eligible
      · exact hsome hrest
      · exact (hnone hrest).trans hfull
    · have hsame := hskip hc
      obtain ⟨hsome, hnone⟩ := ih (p := (updateClient d p c).2) (by omega) (by omega)
      exact ⟨fun h => hsome (h.resolve_left hc), fun h =>
        (hnone fun hrest => h (.inr hrest)).trans hsame⟩

end Loop

section Levels

variable {m : Market} (hlimit : m.numWorkersSoftLimit = 0) (hmax : m.maxWorkers ≤ 1)

include hlimit

theorem updateLevels_restricted (p : Progress) (listIdx : Nat) (levels : List PriorityList) :
    ∀ level ∈ (updateLevels m p listIdx levels).1, ∀ c ∈ level.clients, c.Restricted := by
  induction levels generalizing p listIdx with
  | nil => exact nofun
  | cons level rest ih =>
    rw [updateLevels_cons]
    intro level' hlevel c hc
    obtain rfl | hlevel := mem_cons.mp hlevel
    · exact updateClients_restricted (d := levelData m p listIdx level) hlimit _ _ c
        (mem_reverse.mp hc)
    · exact ih _ _ level' hlevel c hc

include hmax

/-- All levels: the worker is given if and only if some client is eligible. -/
theorem updateLevels_assigned_zero {p : Progress} (hp : 0 ≤ p.assigned)
    (hle : p.assigned ≤ m.maxWorkers) (listIdx : Nat) (levels : List PriorityList) :
    ((∃ level ∈ levels, ∃ c ∈ level.clients, c.Eligible) →
        (updateLevels m p listIdx levels).2.assigned = m.maxWorkers) ∧
      ((¬ ∃ level ∈ levels, ∃ c ∈ level.clients, c.Eligible) →
        (updateLevels m p listIdx levels).2.assigned = p.assigned) := by
  induction levels generalizing p listIdx with
  | nil => exact ⟨nofun, fun _ => rfl⟩
  | cons level rest ih =>
    have hlevel := updateClients_assigned_zero (d := levelData m p listIdx level) hlimit hmax
      (p := { p with
        unassignedWorkers := p.unassignedWorkers - min level.demand p.unassignedWorkers })
      hp hle level.clients.reverse
    simp only [mem_reverse] at hlevel
    obtain ⟨hgive, hskip⟩ := hlevel
    rw [updateLevels_cons]
    simp only [mem_cons, exists_eq_or_imp]
    by_cases hc : ∃ c ∈ level.clients, c.Eligible
    · have hfull : (updateLevel m p listIdx level).2.assigned = m.maxWorkers := hgive hc
      obtain ⟨hsome, hnone⟩ := ih (p := (updateLevel m p listIdx level).2) (by omega) (by omega)
        (listIdx + 1)
      refine ⟨fun _ => ?_, fun h => absurd (.inl hc) h⟩
      by_cases hrest : ∃ level ∈ rest, ∃ c ∈ level.clients, c.Eligible
      · exact hsome hrest
      · exact (hnone hrest).trans hfull
    · have hsame : (updateLevel m p listIdx level).2.assigned = p.assigned := hskip hc
      obtain ⟨hsome, hnone⟩ := ih (p := (updateLevel m p listIdx level).2) (by omega) (by omega)
        (listIdx + 1)
      exact ⟨fun h => hsome (h.resolve_left hc), fun h =>
        (hnone fun hrest => h (.inr hrest)).trans hsame⟩

end Levels

/-! ### The market over any number of calls -/

/-- A client's numbers are those its arena asks for. -/
structure Client.Current (c : Client) : Prop where
  minWorkers : c.minWorkers = c.arena.minWorkersRequest
  maxWorkers : c.maxWorkers = c.arena.maxWorkersRequest

/-- An arena with mandatory work asks for a worker if its requests sum up to one. -/
theorem Client.Current.eligible_iff {c : Client} (h : c.Current) :
    c.Eligible ↔ 0 < c.arena.mandatoryRequests ∧ 0 < c.arena.totalNumWorkersRequested := by
  have hmin : 0 < c.minWorkers ↔ 0 < c.arena.mandatoryRequests := by
    rw [h.minWorkers]
    unfold Arena.minWorkersRequest
    split_ifs with hmandatory
    · exact ⟨fun _ => hmandatory, fun _ => one_pos⟩
    · exact ⟨fun h => absurd h (lt_irrefl _), fun h => absurd h hmandatory⟩
  rw [← hmin]
  refine and_congr_right fun hpos => ?_
  have hnonneg := c.arena.maxWorkersRequest_nonneg
  rw [h.maxWorkers, ← hnonneg.lt_iff_ne']
  apply clamp_pos_iff
  rw [h.minWorkers] at hpos
  split_ifs with hworkerless
  · exact one_pos
  · have : ¬ c.arena.maxNumWorkers = 0 := fun h => hworkerless ⟨hpos, decide_eq_true h⟩
    omega

theorem Client.Current.updateRequest (c : Client) (mandatoryDelta workersDelta : Int) :
    (c.updateRequest mandatoryDelta workersDelta).1.Current := ⟨rfl, rfl⟩

theorem current_of_bare {c c' : Client} (h : bare c = bare c') (hc : c.Current) : c'.Current := by
  have hmin := congrArg Client.minWorkers h
  have hmax := congrArg Client.maxWorkers h
  have harena := congrArg Client.arena h
  have hmandatory := congrArg Arena.mandatoryRequests harena
  have htotal := congrArg Arena.totalNumWorkersRequested harena
  have hworkers := congrArg Arena.maxNumWorkers harena
  simp only [bare, Client.setAllotment, Client.setTopPriority, Arena.setAllotment_eq,
    Arena.setTopPriority] at hmin hmax hmandatory htotal hworkers
  constructor
  · rw [← hmin, hc.minWorkers]
    unfold Arena.minWorkersRequest
    rw [hmandatory]
  · rw [← hmax, hc.maxWorkers]
    unfold Arena.maxWorkersRequest Arena.minWorkersRequest Arena.isArenaWorkerless
    rw [hmandatory, htotal, hworkers]

namespace Market

variable {m m' : Market}

def HasClient (m : Market) (c : Client) : Prop := ∃ level ∈ m.levels, c ∈ level.clients

/-- The clients without what the market sets. -/
def bares (m : Market) : List Client := (m.levels.map fun level => level.clients.map bare).flatten

theorem mem_bares {b : Client} : b ∈ m.bares ↔ ∃ c, m.HasClient c ∧ bare c = b := by
  simp only [bares, HasClient, mem_flatten, mem_map]
  constructor
  · rintro ⟨_, ⟨level, hlevel, rfl⟩, hb⟩
    obtain ⟨c, hc, rfl⟩ := mem_map.mp hb
    exact ⟨c, ⟨level, hlevel, hc⟩, rfl⟩
  · rintro ⟨c, ⟨level, hlevel, hc⟩, rfl⟩
    exact ⟨_, ⟨level, hlevel, rfl⟩, mem_map_of_mem hc⟩

theorem updateAllotment_bares (m : Market) : m.updateAllotment.bares = m.bares := by
  refine congrArg List.flatten (updateLevels_map m (fun p i level => ?_) m.progress 0 m.levels)
  refine updateLevel_map m p i level fun c => ?_
  exact (bare_setTopPriority _ _).trans (bare_setAllotment c 0)

/-- What is read off the bare clients holds of some client before if it does after. -/
theorem exists_updateAllotment_iff {P : Client → Prop}
    (hP : ∀ c c', bare c = bare c' → P c → P c') :
    (∃ c, m.updateAllotment.HasClient c ∧ P c) ↔ ∃ c, m.HasClient c ∧ P c := by
  have hmove : ∀ m₁ m₂ : Market, m₁.bares = m₂.bares →
      (∃ c, m₁.HasClient c ∧ P c) → ∃ c, m₂.HasClient c ∧ P c := by
    rintro m₁ m₂ hbares ⟨c, hc, hPc⟩
    obtain ⟨c', hc', hbare⟩ := mem_bares.mp (hbares ▸ mem_bares.mpr ⟨c, hc, rfl⟩)
    exact ⟨c', hc', hP c c' hbare.symm hPc⟩
  exact ⟨hmove _ _ m.updateAllotment_bares, hmove _ _ m.updateAllotment_bares.symm⟩

/-- With a limit of zero, one worker at most goes to an eligible client, if there is one. -/
structure Restricted (m : Market) : Prop where
  current : ∀ c, m.HasClient c → c.Current
  clients : m.numWorkersSoftLimit = 0 → ∀ c, m.HasClient c → c.Restricted
  given : m.numWorkersSoftLimit = 0 → (∃ c, m.HasClient c ∧ c.Eligible) →
    m.workers = m.maxWorkers
  kept : m.numWorkersSoftLimit = 0 → (¬ ∃ c, m.HasClient c ∧ c.Eligible) → m.workers = 0

theorem restricted_create (workersSoftLimit : Int) : (create workersSoftLimit).Restricted := by
  have hnone : ∀ c, ¬ (create workersSoftLimit).HasClient c := by
    rintro c ⟨level, hlevel, hc⟩
    obtain rfl := eq_of_mem_replicate hlevel
    exact not_mem_nil hc
  exact ⟨fun c hc => absurd hc (hnone c), fun _ c hc => absurd hc (hnone c),
    fun _ ⟨c, hc, _⟩ => absurd hc (hnone c), fun _ _ => rfl⟩

theorem restricted_updateAllotment (hcurrent : ∀ c, m.HasClient c → c.Current)
    (htotal : 0 ≤ m.totalDemand) : m.updateAllotment.Restricted := by
  have hbounds : m.numWorkersSoftLimit = 0 → 0 ≤ m.maxWorkers ∧ m.maxWorkers ≤ 1 := by
    intro hlimit
    unfold maxWorkers effectiveSoftLimit
    split_ifs <;> omega
  have hassigned : m.updateAllotment.workers =
      (updateLevels m m.progress 0 m.levels).2.assigned := by
    have h := updateLevels_assigned m m.progress 0 m.levels
    rw [show m.progress.assigned = 0 from rfl, zero_add] at h
    exact h.symm
  have heligible : (∃ c, m.updateAllotment.HasClient c ∧ c.Eligible) ↔
      ∃ level ∈ m.levels, ∃ c ∈ level.clients, c.Eligible := by
    rw [exists_updateAllotment_iff fun c c' hbare => (eligible_iff_of_bare hbare).mp]
    constructor
    · rintro ⟨c, ⟨level, hlevel, hc⟩, hel⟩
      exact ⟨level, hlevel, c, hc, hel⟩
    · rintro ⟨level, hlevel, c, hc, hel⟩
      exact ⟨c, ⟨level, hlevel, hc⟩, hel⟩
  constructor
  case current =>
    intro c hc
    obtain ⟨c₀, hc₀, hbare⟩ :=
      mem_bares.mp (m.updateAllotment_bares ▸ mem_bares.mpr ⟨c, hc, rfl⟩)
    exact current_of_bare hbare (hcurrent c₀ hc₀)
  case clients =>
    rintro hlimit c ⟨level, hlevel, hc⟩
    have hlimit : m.numWorkersSoftLimit = 0 := hlimit
    exact updateLevels_restricted hlimit m.progress 0 m.levels level hlevel c hc
  case given =>
    intro hlimit hsome
    have hlimit : m.numWorkersSoftLimit = 0 := hlimit
    obtain ⟨hnonneg, hle⟩ := hbounds hlimit
    rw [hassigned]
    exact (updateLevels_assigned_zero hlimit hle (p := m.progress) le_rfl hnonneg 0 m.levels).1
      (heligible.mp hsome)
  case kept =>
    intro hlimit hnone
    have hlimit : m.numWorkersSoftLimit = 0 := hlimit
    obtain ⟨hnonneg, hle⟩ := hbounds hlimit
    rw [hassigned]
    exact (updateLevels_assigned_zero hlimit hle (p := m.progress) le_rfl hnonneg 0 m.levels).2
      fun hsome => hnone (heligible.mpr hsome)

/-- A client that is added asks for nothing and has nothing. -/
theorem Restricted.registerClient (h : m.Restricted) {l numSlots numReservedSlots : Nat}
    (hm : m.registerClient l (Client.create (Arena.create numSlots numReservedSlots)) = some m') :
    m'.Restricted := by
  obtain ⟨level, hl, rfl⟩ := Option.map_eq_some_iff.mp hm
  set c := Client.create (Arena.create numSlots numReservedSlots) with hc
  set new : PriorityList := { level with clients := level.clients ++ [c] } with hnew
  have hclient : ∀ c', HasClient { m with levels := m.levels.set l new } c' →
      m.HasClient c' ∨ c' = c := by
    rintro c' ⟨level', hlevel, hc'⟩
    obtain hmem | rfl := mem_or_eq_of_mem_set hlevel
    · exact .inl ⟨level', hmem, hc'⟩
    · obtain hc' | hc' := mem_append.mp hc'
      · exact .inl ⟨level, mem_of_getElem? hl, hc'⟩
      · exact .inr (mem_singleton.mp hc')
  have hold : ∀ c', m.HasClient c' → HasClient { m with levels := m.levels.set l new } c' := by
    rintro c' ⟨level', hlevel, hc'⟩
    obtain ⟨before, after, hsplit, -, hset⟩ := Positions.exists_split hl
    refine ⟨if level' = level then new else level', ?_, ?_⟩
    · rw [hset]
      rw [hsplit] at hlevel
      split_ifs with hsame
      · simp
      · simp only [mem_append, mem_cons] at hlevel ⊢
        tauto
    · split_ifs with hsame
      · exact mem_append_left _ (hsame ▸ hc')
      · exact hc'
  have heligible : (∃ c', HasClient { m with levels := m.levels.set l new } c' ∧ c'.Eligible) ↔
      ∃ c', m.HasClient c' ∧ c'.Eligible := by
    constructor
    · rintro ⟨c', hc', hel⟩
      obtain hc' | rfl := hclient c' hc'
      · exact ⟨c', hc', hel⟩
      · exact absurd hel.1 (lt_irrefl _)
    · rintro ⟨c', hc', hel⟩
      exact ⟨c', hold c' hc', hel⟩
  have hworkers : workers { m with levels := m.levels.set l new } = m.workers :=
    congrArg List.sum (Positions.map_set_eq hl (by simp [hnew, PriorityList.workers, hc]; rfl))
  constructor
  case current =>
    intro c' hc'
    obtain hc' | rfl := hclient c' hc'
    · exact h.current c' hc'
    · exact ⟨rfl, rfl⟩
  case clients =>
    intro hlimit c' hc'
    obtain hc' | rfl := hclient c' hc'
    · exact h.clients hlimit c' hc'
    · exact ⟨le_rfl, fun h => absurd h (lt_irrefl _), fun _ => rfl⟩
  case given =>
    intro hlimit hsome
    exact hworkers.trans (h.given hlimit (heligible.mp hsome))
  case kept =>
    intro hlimit hnone
    exact hworkers.trans (h.kept hlimit fun hsome => hnone (heligible.mpr hsome))

theorem Restricted.countRequest (h : m.Restricted) {l i : Nat} {mandatoryDelta workersDelta : Int}
    (hm : m.countRequest l i mandatoryDelta workersDelta = some m') :
    ∀ c, m'.HasClient c → c.Current := by
  obtain ⟨level, hl, hm⟩ := Option.bind_eq_some_iff.mp hm
  obtain ⟨c, hi, rfl⟩ := Option.map_eq_some_iff.mp hm
  rintro c' ⟨level', hlevel, hc'⟩
  obtain hmem | rfl := mem_or_eq_of_mem_set hlevel
  · exact h.current c' ⟨level', hmem, hc'⟩
  · obtain hc' | rfl := mem_or_eq_of_mem_set hc'
    · exact h.current c' ⟨level, mem_of_getElem? hl, hc'⟩
    · exact Client.Current.updateRequest c mandatoryDelta workersDelta

theorem Restricted.adjustDemand (h : m.Restricted) (hsound : m.Sound) {l i : Nat}
    {mandatoryDelta workersDelta : Int}
    (hm : m.adjustDemand l i mandatoryDelta workersDelta = some m') :
    m'.Restricted ∧ m'.Sound := by
  obtain ⟨m₁, hcount, rfl⟩ := Option.map_eq_some_iff.mp hm
  obtain ⟨hcounted, htotal⟩ := hsound.countRequest hcount
  exact ⟨restricted_updateAllotment (h.countRequest hcount)
      (le_of_le_of_eq (requested_nonneg hcounted) htotal.symm),
    sound_updateAllotment hcounted htotal⟩

theorem Restricted.setActiveNumWorkers (h : m.Restricted) (hsound : m.Sound) (softLimit : Int) :
    (m.setActiveNumWorkers softLimit).Restricted := by
  unfold Market.setActiveNumWorkers
  split_ifs
  · exact restricted_updateAllotment h.current
      (le_of_le_of_eq (requested_nonneg hsound.counted) hsound.total.symm)
  · exact h

end Market

/-! ### The arenas and the market -/

/-- The market, and what goes on in the arena of each client. -/
structure System where
  market : Market
  activity : Nat → Nat → Activity

inductive SystemEvent where
  | registerClient (l numSlots numReservedSlots : Nat)
  | setActiveNumWorkers (softLimit : Int)
  | arena (l i : Nat) (event : Event)

namespace System

def create (workersSoftLimit : Int) : System :=
  ⟨.create workersSoftLimit, fun _ _ => .initial⟩

/-- A step of an arena's call, whose request goes to the market. -/
def arenaStep (s : System) (l i : Nat) (event : Event) : Option System :=
  (s.market.client l i).bind fun c =>
    ((s.activity l i).step c.arena event).bind fun (activity, request) =>
      (request.elim (some s.market) fun r => s.market.adjustDemand l i r.1 r.2).map fun market =>
        ⟨market, update s.activity l (update (s.activity l) i activity)⟩

def step (s : System) : SystemEvent → Option System
  | .registerClient l numSlots numReservedSlots =>
    (s.market.registerClient l (Client.create (Arena.create numSlots numReservedSlots))).map
      fun market => { s with market := market }
  | .setActiveNumWorkers softLimit =>
    some { s with market := s.market.setActiveNumWorkers softLimit }
  | .arena l i event => s.arenaStep l i event

/-- Any interleaving of the calls of any arenas. -/
def Run : System → System → Prop :=
  Relation.ReflTransGen fun s t => ∃ event, s.step event = some t

/-- What holds of the market in every state. -/
def Good (s : System) : Prop := s.market.Restricted ∧ s.market.Sound

theorem Good.step {s t : System} (h : s.Good) {event : SystemEvent}
    (ht : s.step event = some t) : t.Good := by
  obtain ⟨hrestricted, hsound⟩ := h
  cases event with
  | registerClient l numSlots numReservedSlots =>
    obtain ⟨market, hmarket, rfl⟩ := Option.map_eq_some_iff.mp ht
    exact ⟨hrestricted.registerClient hmarket, hsound.registerClient rfl rfl hmarket⟩
  | setActiveNumWorkers softLimit =>
    cases ht
    exact ⟨hrestricted.setActiveNumWorkers hsound softLimit,
      hsound.setActiveNumWorkers softLimit⟩
  | arena l i event =>
    obtain ⟨c, hc, ht⟩ := Option.bind_eq_some_iff.mp ht
    obtain ⟨⟨activity, request⟩, hstep, ht⟩ := Option.bind_eq_some_iff.mp ht
    obtain ⟨market, hmarket, rfl⟩ := Option.map_eq_some_iff.mp ht
    cases request with
    | none =>
      cases hmarket
      exact ⟨hrestricted, hsound⟩
    | some r => exact hrestricted.adjustDemand hsound hmarket

theorem good_of_run {workersSoftLimit : Int} {s : System} (run : (create workersSoftLimit).Run s) :
    s.Good :=
  Transition.run_preserves (fun _ _ h ⟨_, hstep⟩ => h.step hstep) run
    ⟨Market.restricted_create _, Market.sound_create _⟩

end System

/-- The workers of a restricted market are those of its clients. -/
theorem Market.exists_served {m : Market} (hclients : ∀ c, m.HasClient c → c.Restricted)
    (hworkers : m.workers = 1) : ∃ c, m.HasClient c ∧ c.allotment = 1 := by
  have hnonneg : ∀ level ∈ m.levels, 0 ≤ level.workers := by
    intro level hlevel
    apply sum_nonneg
    intro n hn
    obtain ⟨c, hc, rfl⟩ := mem_map.mp hn
    exact (hclients c ⟨level, hlevel, hc⟩).nonneg
  have hle : ∀ c, m.HasClient c → c.allotment ≤ 1 := by
    rintro c ⟨level, hlevel, hc⟩
    calc c.allotment
        ≤ level.workers := single_le_sum (fun n hn => by
          obtain ⟨c, hc, rfl⟩ := mem_map.mp hn
          exact (hclients c ⟨level, hlevel, hc⟩).nonneg) _ (mem_map_of_mem hc)
      _ ≤ m.workers := single_le_sum (fun n hn => by
          obtain ⟨level, hlevel, rfl⟩ := mem_map.mp hn
          exact hnonneg level hlevel) _ (mem_map_of_mem hlevel)
      _ = 1 := hworkers
  by_contra hnone
  have hzero : m.workers = 0 := by
    apply sum_eq_zero
    intro n hn
    obtain ⟨level, hlevel, rfl⟩ := mem_map.mp hn
    apply sum_eq_zero
    intro n hn
    obtain ⟨c, hc, rfl⟩ := mem_map.mp hn
    have hmem : m.HasClient c := ⟨level, hlevel, hc⟩
    have h₁ := hle c hmem
    have h₂ := (hclients c hmem).nonneg
    have h₃ : c.allotment ≠ 1 := fun h => hnone ⟨c, hmem, h⟩
    omega
  omega

/-- With a limit of zero and some demand, the market gives one worker, and gives it to a
client with a mandatory request, exactly if the mandatory requests sum up to more than
none and some arena with a mandatory request asks for workers. -/
theorem market_serves_mandatory_iff {workersSoftLimit : Int} {s : System}
    (run : (System.create workersSoftLimit).Run s) (hlimit : s.market.numWorkersSoftLimit = 0)
    (hdemand : 0 < s.market.totalDemand) :
    (s.market.workers = 1 ∧ s.market.workers = s.market.maxWorkers ∧
        ∃ c, s.market.HasClient c ∧ c.allotment = 1 ∧ 0 < c.arena.mandatoryRequests) ↔
      0 < s.market.mandatoryNumRequested ∧
        ∃ c, s.market.HasClient c ∧ 0 < c.arena.mandatoryRequests ∧
          0 < c.arena.totalNumWorkersRequested := by
  obtain ⟨hrestricted, -⟩ := System.good_of_run run
  have hmax : s.market.maxWorkers = 1 ↔ 0 < s.market.mandatoryNumRequested := by
    unfold Market.maxWorkers Market.effectiveSoftLimit
    split_ifs with hmandatory
    · exact ⟨fun _ => hmandatory.1, fun _ => by omega⟩
    · have : ¬ 0 < s.market.mandatoryNumRequested := fun h => hmandatory ⟨h, hlimit⟩
      omega
  have heligible : (∃ c, s.market.HasClient c ∧ c.Eligible) ↔
      ∃ c, s.market.HasClient c ∧ 0 < c.arena.mandatoryRequests ∧
        0 < c.arena.totalNumWorkersRequested :=
    exists_congr fun c => and_congr_right fun hc => (hrestricted.current c hc).eligible_iff
  rw [← heligible, ← hmax]
  constructor
  · rintro ⟨hone, hall, -⟩
    refine ⟨hall.symm.trans hone, ?_⟩
    by_contra hnone
    have := hrestricted.kept hlimit hnone
    omega
  · rintro ⟨hone, hsome⟩
    have hall := hrestricted.given hlimit hsome
    obtain ⟨c, hc, hserved⟩ :=
      Market.exists_served (hrestricted.clients hlimit) (hall.trans hone)
    refine ⟨hall.trans hone, hall, c, hc, hserved, ?_⟩
    have hmin := (hrestricted.clients hlimit c hc).mandatory (by omega)
    rw [(hrestricted.current c hc).minWorkers] at hmin
    unfold Arena.minWorkersRequest at hmin
    split_ifs at hmin with hmandatory
    · exact hmandatory
    · exact absurd hmin (lt_irrefl _)

/-- Work is enqueued in an arena of one worker. -/
def enqueueInFirst : List SystemEvent :=
  .registerClient 1 2 1 :: .registerClient 1 2 1 ::
    [.makeAvailable .fifo, .advertiseNewWork .workEnqueued, .proceed 0, .proceed 0, .proceed 0,
      .proceed 0, .proceed 0].map (.arena 1 0)

/-- An external thread takes the slot of the arena's worker, and then work is spawned in
another arena. -/
def enterFirstSpawnInSecond : List SystemEvent :=
  [Event.enter 1, .proceed 0].map (.arena 1 0) ++
    [Event.makeAvailable (.slot 0), .advertiseNewWork .workSpawned, .proceed 0, .proceed 0,
      .proceed 0].map (.arena 1 1)

theorem market_serves_mandatory_iff_first : ∃ s : System,
    (System.create 0).Run s ∧ s.market.numWorkersSoftLimit = 0 ∧ 0 < s.market.totalDemand ∧
      s.market.workers = 1 := by
  have hevents : (enqueueInFirst.foldlM System.step (System.create 0)).map (fun s =>
      (s.market.numWorkersSoftLimit, s.market.totalDemand, s.market.mandatoryNumRequested,
        (s.market.client 1 0).map fun c =>
          (c.arena.mandatoryRequests, c.arena.totalNumWorkersRequested))) =
        some (0, 1, 1, some (1, 1)) := by
    decide +kernel
  obtain ⟨s, hs, hread⟩ := Option.map_eq_some_iff.mp hevents
  simp only [Prod.mk.injEq] at hread
  obtain ⟨hlimit, hdemand, hmandatory, hclient⟩ := hread
  obtain ⟨c, hc, hrequests⟩ := Option.map_eq_some_iff.mp hclient
  obtain ⟨level, hl, hi⟩ := Option.bind_eq_some_iff.mp hc
  simp only [Prod.mk.injEq] at hrequests
  have run : (System.create 0).Run s := Transition.run_of_foldlM hs
  refine ⟨s, run, hlimit, by omega, ?_⟩
  exact ((market_serves_mandatory_iff run hlimit (by omega)).mpr ⟨by omega, c,
    ⟨level, mem_of_getElem? hl, mem_of_getElem? hi⟩, by omega, by omega⟩).1

/-- The first arena has mandatory work and asks for no worker, the second asks for one and
has no mandatory work: a worker is to be given, and nobody gets it. -/
theorem mandatory_work_not_served : ∃ s : System,
    (System.create 0).Run s ∧ (s.activity 1 0).jobs = [] ∧ (s.activity 1 1).jobs = [] ∧
      s.market.numWorkersSoftLimit = 0 ∧ 0 < s.market.totalDemand ∧
      (∃ c, s.market.HasClient c ∧ 0 < c.arena.mandatoryRequests) ∧
      s.market.maxWorkers = 1 ∧ s.market.workers = 0 ∧ ¬ s.market.AllAssigned := by
  have hevents : ((enqueueInFirst ++ enterFirstSpawnInSecond).foldlM System.step
      (System.create 0)).map (fun s =>
        ((s.activity 1 0).jobs ++ (s.activity 1 1).jobs,
          [s.market.numWorkersSoftLimit, s.market.totalDemand, s.market.maxWorkers,
            s.market.workers],
          (s.market.client 1 0).map fun c => c.arena.mandatoryRequests,
          decide s.market.AllAssigned)) =
        some ([], [0, 1, 1, 0], some 1, false) := by
    decide +kernel
  obtain ⟨s, hs, hread⟩ := Option.map_eq_some_iff.mp hevents
  simp only [Prod.mk.injEq, append_eq_nil_iff, List.cons.injEq, and_true,
    decide_eq_false_iff_not] at hread
  obtain ⟨⟨hfirst, hsecond⟩, ⟨hlimit, hdemand, hmax, hworkers⟩, hclient, hassigned⟩ := hread
  obtain ⟨c, hc, hrequests⟩ := Option.map_eq_some_iff.mp hclient
  obtain ⟨level, hl, hi⟩ := Option.bind_eq_some_iff.mp hc
  exact ⟨s, Transition.run_of_foldlM hs, hfirst, hsecond, hlimit, by omega, ⟨c,
    ⟨level, mem_of_getElem? hl, mem_of_getElem? hi⟩, by omega⟩, hmax, hworkers,
    hassigned⟩

end OneTbb.Scheduler
