import OneTbb.Scheduler.Market
import OneTbb.Library.Positions

/-!
# Workers are shared in proportion

The loops of `update_allotment` carry the rest of a division from client to client.
Over a whole level the rest vanishes, so a level gets exactly the workers it is
assigned, and the levels together get as many as there are to hand out.
-/

namespace OneTbb.Scheduler

open List Client

/-! ### What a level asks for and what it has -/

/-- The workers the clients of a level ask for. -/
def PriorityList.requested (level : PriorityList) : Int := (level.clients.map (·.maxWorkers)).sum

/-- The workers the clients of a level have. -/
def PriorityList.workers (level : PriorityList) : Int := (level.clients.map (·.allotment)).sum

namespace Market

def requested (m : Market) : Int := (m.levels.map (·.requested)).sum

def workers (m : Market) : Int := (m.levels.map (·.workers)).sum

end Market

/-- A client has no more than it asks for, and less than one worker more or less than its
part of the `k` workers that the level with demand `d` gets. -/
structure Fair (k d : Int) (c : Client) : Prop where
  nonneg : 0 ≤ c.allotment
  le : c.allotment ≤ c.maxWorkers
  near : |(c.allotment : ℚ) - c.maxWorkers * k / d| < 1

variable {p : Progress} {c : Client}

theorem Fair.of_zero {k d : Int} {c : Client} (ha : c.allotment = 0) (hm : c.maxWorkers = 0) :
    Fair k d c where
  nonneg := ha.ge
  le := ha.trans_le hm.ge
  near := by simp [ha, hm]

/-! ### The loop over the clients of a level -/

/-- A client without what the market sets. -/
def bare (c : Client) : Client := (c.setAllotment 0).setTopPriority false

theorem bare_setAllotment (c : Client) (n : Int) : bare (c.setAllotment n) = bare c := by
  simp only [bare, setAllotment, setTopPriority, Arena.setAllotment_eq,
    Arena.setTopPriority]

theorem bare_setTopPriority (c : Client) (b : Bool) : bare (c.setTopPriority b) = bare c := by
  simp only [bare, setAllotment, setTopPriority, Arena.setAllotment_eq,
    Arena.setTopPriority]

theorem updateClient_bare (d : LevelData) (p : Progress) (c : Client) :
    bare (updateClient d p c).1 = bare c := by
  unfold updateClient
  split_ifs
  · exact bare_setAllotment c 0
  · exact (bare_setTopPriority _ _).trans (bare_setAllotment c _)
  · exact (bare_setTopPriority _ _).trans (bare_setAllotment c _)
  · exact (bare_setTopPriority _ _).trans (bare_setAllotment c _)

theorem updateClient_maxWorkers (d : LevelData) (p : Progress) (c : Client) :
    (updateClient d p c).1.maxWorkers = c.maxWorkers := by
  have h := congrArg maxWorkers (updateClient_bare d p c)
  exact h

theorem updateClients_cons (d : LevelData) (p : Progress) (c : Client) (cs : List Client) :
    updateClients d p (c :: cs) =
      ((updateClient d p c).1 :: (updateClients d (updateClient d p c).2 cs).1,
        (updateClients d (updateClient d p c).2 cs).2) := rfl

/-- The market changes nothing of a client but its workers. -/
theorem updateClients_bare (d : LevelData) (p : Progress) (cs : List Client) :
    (updateClients d p cs).1.map bare = cs.map bare := by
  induction cs generalizing p with
  | nil => rfl
  | cons c rest ih =>
    rw [updateClients_cons, map_cons, map_cons, updateClient_bare, ih]

/-- What is read off the bare clients is as before. -/
theorem updateClients_map {β : Type*} {f : Client → β} (hf : ∀ c, f (bare c) = f c)
    (d : LevelData) (p : Progress) (cs : List Client) :
    (updateClients d p cs).1.map f = cs.map f := by
  have h := congrArg (List.map f) (updateClients_bare d p cs)
  simpa only [map_map, Function.comp_def, hf] using h

theorem updateClients_unassignedWorkers (d : LevelData) (p : Progress) (cs : List Client) :
    (updateClients d p cs).2.unassignedWorkers = p.unassignedWorkers := by
  induction cs generalizing p with
  | nil => rfl
  | cons c rest ih =>
    rw [updateClients_cons, ih]
    unfold updateClient
    split_ifs <;> rfl

/-- Each client that is served adds its workers to the ones assigned. -/
theorem updateClients_assigned (d : LevelData) (p : Progress) (cs : List Client) :
    (updateClients d p cs).2.assigned =
      p.assigned + ((updateClients d p cs).1.map (·.allotment)).sum := by
  induction cs generalizing p with
  | nil => exact (add_zero _).symm
  | cons c rest ih =>
    have hbody : (updateClient d p c).2.assigned =
        p.assigned + (updateClient d p c).1.allotment := by
      unfold updateClient
      split_ifs <;> simp
    rw [updateClients_cons, ih, hbody, map_cons, sum_cons, add_assoc]

section Shares

variable {d : LevelData} (hlimit : d.numWorkersSoftLimit ≠ 0)

include hlimit

theorem updateClient_of_ne_zero (hc : c.maxWorkers ≠ 0) :
    (updateClient d p c).1.allotment =
        Apportion.share d.assignedPerPriority d.demand c.maxWorkers p.carry ∧
      (updateClient d p c).2.carry =
        Apportion.rest d.assignedPerPriority d.demand c.maxWorkers p.carry := by
  unfold updateClient
  rw [if_neg hc, if_neg hlimit]
  exact ⟨setAllotment_allotment _ _, rfl⟩

variable (hk : 0 ≤ d.assignedPerPriority) (hkd : d.assignedPerPriority ≤ d.demand)
  (hd : 0 < d.demand)

include hk hkd hd

theorem updateClient_share (hmax : 0 ≤ c.maxWorkers) (hc : 0 ≤ p.carry) (hcd : p.carry < d.demand) :
    Fair d.assignedPerPriority d.demand (updateClient d p c).1 ∧
      0 ≤ (updateClient d p c).2.carry ∧ (updateClient d p c).2.carry < d.demand ∧
      (updateClient d p c).1.allotment * d.demand + (updateClient d p c).2.carry =
        c.maxWorkers * d.assignedPerPriority + p.carry := by
  have hsame := updateClient_maxWorkers d p c
  by_cases hzero : c.maxWorkers = 0
  · have hnone : updateClient d p c = (c.setAllotment 0, p) := by
      unfold updateClient
      rw [if_pos hzero]
    rw [hnone]
    refine ⟨Fair.of_zero (setAllotment_allotment _ _) hzero, hc, hcd, ?_⟩
    rw [setAllotment_allotment, hzero, zero_mul, zero_mul]
  · obtain ⟨hshare, hrest⟩ := updateClient_of_ne_zero hlimit (p := p) hzero
    rw [hrest]
    refine ⟨⟨?_, ?_, ?_⟩, Apportion.rest_nonneg hk hmax hc, Apportion.rest_lt hd, ?_⟩
    · rw [hshare]
      exact Apportion.share_nonneg hk hd hmax hc
    · rw [hshare, hsame]
      exact Apportion.share_le hk hd hmax hc hkd hcd
    · rw [hshare, hsame]
      exact Apportion.share_near hk hd hmax hc hcd
    · rw [hshare]
      exact Apportion.share_mul_add_rest _ _ _ _

theorem updateClients_share (cs : List Client) (hmax : ∀ c ∈ cs, 0 ≤ c.maxWorkers)
    (hc : 0 ≤ p.carry) (hcd : p.carry < d.demand) :
    (∀ c ∈ (updateClients d p cs).1, Fair d.assignedPerPriority d.demand c) ∧
      0 ≤ (updateClients d p cs).2.carry ∧ (updateClients d p cs).2.carry < d.demand ∧
      ((updateClients d p cs).1.map (·.allotment)).sum * d.demand +
          (updateClients d p cs).2.carry =
        (cs.map (·.maxWorkers)).sum * d.assignedPerPriority + p.carry := by
  induction cs generalizing p with
  | nil => exact ⟨nofun, hc, hcd, by simp [updateClients]⟩
  | cons c rest ih =>
    obtain ⟨hfair, hc₁, hcd₁, hsplit⟩ :=
      updateClient_share hlimit hk hkd hd (hmax c mem_cons_self) hc hcd
    obtain ⟨hfairs, hc₂, hcd₂, hsplits⟩ :=
      ih (fun c h => hmax c (mem_cons_of_mem _ h)) hc₁ hcd₁
    refine ⟨?_, hc₂, hcd₂, ?_⟩
    · intro c' h
      obtain rfl | h := mem_cons.mp h
      · exact hfair
      · exact hfairs c' h
    · rw [updateClients_cons, map_cons, sum_cons, map_cons, sum_cons]
      linarith

end Shares

theorem updateClients_of_zero (d : LevelData) (p : Progress) (cs : List Client)
    (h : ∀ c ∈ cs, c.maxWorkers = 0) :
    updateClients d p cs = (cs.map (·.setAllotment 0), p) := by
  induction cs generalizing p with
  | nil => rfl
  | cons c rest ih =>
    have hbody : updateClient d p c = (c.setAllotment 0, p) := by
      unfold updateClient
      rw [if_pos (h c mem_cons_self)]
    rw [updateClients_cons, hbody, ih p fun c hc => h c (mem_cons_of_mem _ hc),
      map_cons]

/-! ### The loop over the levels -/

/-- The market's count of a level's demand is what the clients of the level ask for. -/
structure Counted (level : PriorityList) : Prop where
  demand : level.demand = level.requested
  nonneg : ∀ c ∈ level.clients, 0 ≤ c.maxWorkers

theorem Counted.requested_nonneg {level : PriorityList} (h : Counted level) :
    0 ≤ level.requested := by
  apply sum_nonneg
  intro n hn
  obtain ⟨c, hc, rfl⟩ := mem_map.mp hn
  exact h.nonneg c hc

/-- A level in which nobody asks for more than the level has no demand in any client. -/
theorem Counted.maxWorkers_eq_zero {level : PriorityList} (h : Counted level)
    (hzero : level.requested = 0) (hc : c ∈ level.clients) : c.maxWorkers = 0 := by
  have hle : c.maxWorkers ≤ level.requested :=
    single_le_sum (fun n hn => by
      obtain ⟨c, hc, rfl⟩ := mem_map.mp hn
      exact h.nonneg c hc) _ (mem_map_of_mem hc)
  have := h.nonneg c hc
  omega

section Level

variable (m : Market) (p : Progress) (listIdx : Nat) (level : PriorityList)

theorem updateLevel_map {β : Type*} {f : Client → β} (hf : ∀ c, f (bare c) = f c) :
    (updateLevel m p listIdx level).1.clients.map f = level.clients.map f := by
  change (updateClients _ _ level.clients.reverse).1.reverse.map f = _
  rw [map_reverse, updateClients_map hf, ← map_reverse, reverse_reverse]

theorem updateLevel_requested :
    (updateLevel m p listIdx level).1.requested = level.requested := by
  unfold PriorityList.requested
  rw [updateLevel_map m p listIdx level fun _ => rfl]

theorem updateLevel_assigned :
    (updateLevel m p listIdx level).2.assigned =
      p.assigned + (updateLevel m p listIdx level).1.workers := by
  change (updateClients _ _ level.clients.reverse).2.assigned =
    p.assigned + ((updateClients _ _ level.clients.reverse).1.reverse.map (·.allotment)).sum
  rw [updateClients_assigned, map_reverse, sum_reverse]

theorem updateLevel_unassignedWorkers :
    (updateLevel m p listIdx level).2.unassignedWorkers =
      p.unassignedWorkers - min level.demand p.unassignedWorkers :=
  updateClients_unassignedWorkers _ _ _

variable {m p level}

theorem Counted.updateLevel (h : Counted level) :
    Counted (updateLevel m p listIdx level).1 where
  demand := h.demand.trans (updateLevel_requested m p listIdx level).symm
  nonneg := by
    intro c hc
    have hmem : c.maxWorkers ∈ level.clients.map (·.maxWorkers) := by
      rw [← updateLevel_map m p listIdx level fun _ => rfl]
      exact mem_map_of_mem hc
    obtain ⟨c₀, hc₀, hsame⟩ := mem_map.mp hmem
    exact hsame ▸ h.nonneg c₀ hc₀

/-- A level gets exactly the workers it is assigned, and nothing is carried to the next. -/
theorem updateLevel_share (hlimit : m.numWorkersSoftLimit ≠ 0) (h : Counted level)
    (hp : 0 ≤ p.unassignedWorkers) (hcarry : p.carry = 0) :
    (updateLevel m p listIdx level).1.workers = min level.requested p.unassignedWorkers ∧
      (updateLevel m p listIdx level).2.carry = 0 ∧
      ∀ c ∈ (updateLevel m p listIdx level).1.clients,
        Fair (min level.requested p.unassignedWorkers) level.requested c := by
  have hnonneg := h.requested_nonneg
  rw [← h.demand] at hnonneg ⊢
  obtain hzero | hpos := hnonneg.eq_or_lt
  · -- nobody asks for a worker
    have hnone : ∀ c ∈ level.clients, c.maxWorkers = 0 := fun c hc =>
      h.maxWorkers_eq_zero (h.demand.symm.trans hzero.symm) hc
    have hloop := updateClients_of_zero (levelData m p listIdx level)
      { p with unassignedWorkers := p.unassignedWorkers - min level.demand p.unassignedWorkers }
      level.clients.reverse fun c hc => hnone c (mem_reverse.mp hc)
    have hlevel : updateLevel m p listIdx level =
        ({ level with clients := level.clients.map (·.setAllotment 0) },
          { p with
            unassignedWorkers := p.unassignedWorkers - min level.demand p.unassignedWorkers }) := by
      unfold updateLevel
      dsimp only
      rw [show (levelData m p listIdx level).assignedPerPriority =
        min level.demand p.unassignedWorkers from rfl, hloop]
      simp only [map_reverse, reverse_reverse]
    rw [hlevel]
    refine ⟨?_, hcarry, ?_⟩
    · rw [← hzero, min_eq_left hp]
      simp [PriorityList.workers, Function.comp_def]
    · intro c hc
      obtain ⟨c₀, hc₀, rfl⟩ := mem_map.mp hc
      exact Fair.of_zero (setAllotment_allotment _ _) (hnone c₀ hc₀)
  · obtain ⟨hfair, hc, hcd, hsplit⟩ := updateClients_share (d := levelData m p listIdx level)
      hlimit (le_min hpos.le hp) (min_le_left _ _) hpos level.clients.reverse
      (p := { p with
        unassignedWorkers := p.unassignedWorkers - min level.demand p.unassignedWorkers })
      (fun c hc => h.nonneg c (mem_reverse.mp hc)) hcarry.ge (hcarry.trans_lt hpos)
    have hsum : (level.clients.reverse.map (·.maxWorkers)).sum = level.demand := by
      rw [map_reverse, sum_reverse]
      exact h.demand.symm
    rw [hsum] at hsplit
    obtain ⟨hall, hrest⟩ := Apportion.total_and_rest_zero
      (hsplit.trans (by rw [show Progress.carry _ = 0 from hcarry, add_zero]; rfl)) hc hcd
    refine ⟨?_, hrest, ?_⟩
    · change ((updateClients _ _ level.clients.reverse).1.reverse.map (·.allotment)).sum = _
      rw [map_reverse, sum_reverse]
      exact hall
    · intro c hc
      exact hfair c (mem_reverse.mp hc)

end Level

/-- No level has workers before the levels above it have all they ask for, and within a
level the workers are shared fairly. -/
structure Served (levels : List PriorityList) : Prop where
  fair : ∀ level ∈ levels, ∀ c ∈ level.clients, Fair level.workers level.requested c
  ordered : levels.Pairwise fun high low => 0 < low.workers → high.workers = high.requested

section Levels

variable (m : Market)

theorem updateLevels_cons (p : Progress) (listIdx : Nat) (level : PriorityList)
    (rest : List PriorityList) :
    updateLevels m p listIdx (level :: rest) =
      ((updateLevel m p listIdx level).1 ::
          (updateLevels m (updateLevel m p listIdx level).2 (listIdx + 1) rest).1,
        (updateLevels m (updateLevel m p listIdx level).2 (listIdx + 1) rest).2) := rfl

/-- What is read off the levels and does not change when a level is served is as before. -/
theorem updateLevels_map {β : Type*} {f : PriorityList → β}
    (hf : ∀ p i level, f (updateLevel m p i level).1 = f level)
    (p : Progress) (listIdx : Nat) (levels : List PriorityList) :
    (updateLevels m p listIdx levels).1.map f = levels.map f := by
  induction levels generalizing p listIdx with
  | nil => rfl
  | cons level rest ih => rw [updateLevels_cons, map_cons, map_cons, hf, ih]

theorem updateLevels_requested (p : Progress) (listIdx : Nat) (levels : List PriorityList) :
    (updateLevels m p listIdx levels).1.map (·.requested) = levels.map (·.requested) :=
  updateLevels_map m (fun p i level => updateLevel_requested m p i level) p listIdx levels

theorem updateLevels_counted {levels : List PriorityList} (h : ∀ level ∈ levels, Counted level)
    (p : Progress) (listIdx : Nat) :
    ∀ level ∈ (updateLevels m p listIdx levels).1, Counted level := by
  induction levels generalizing p listIdx with
  | nil => exact nofun
  | cons level rest ih =>
    intro level' hmem
    obtain rfl | hmem := mem_cons.mp hmem
    · exact (h level mem_cons_self).updateLevel listIdx
    · exact ih (fun l hl => h l (mem_cons_of_mem _ hl)) _ _ level' hmem

theorem updateLevels_assigned (p : Progress) (listIdx : Nat) (levels : List PriorityList) :
    (updateLevels m p listIdx levels).2.assigned =
      p.assigned + ((updateLevels m p listIdx levels).1.map (·.workers)).sum := by
  induction levels generalizing p listIdx with
  | nil => exact (add_zero _).symm
  | cons level rest ih =>
    rw [updateLevels_cons, ih, updateLevel_assigned, map_cons, sum_cons, add_assoc]

variable {m}

/-- The levels together get as many workers as there are, or as many as they ask for. -/
theorem updateLevels_share (hlimit : m.numWorkersSoftLimit ≠ 0) {levels : List PriorityList}
    (h : ∀ level ∈ levels, Counted level) (listIdx : Nat)
    (hp : 0 ≤ p.unassignedWorkers) (hcarry : p.carry = 0) :
    ((updateLevels m p listIdx levels).1.map (·.workers)).sum =
        min (levels.map (·.requested)).sum p.unassignedWorkers ∧
      Served (updateLevels m p listIdx levels).1 := by
  induction levels generalizing p listIdx with
  | nil => exact ⟨(min_eq_left hp).symm, nofun, List.Pairwise.nil⟩
  | cons level rest ih =>
    have hlevel := h level mem_cons_self
    have hrest : ∀ l ∈ rest, Counted l := fun l hl => h l (mem_cons_of_mem _ hl)
    obtain ⟨hworkers, hcarry₁, hfair⟩ := updateLevel_share listIdx hlimit hlevel hp hcarry
    have hleft := updateLevel_unassignedWorkers m p listIdx level
    rw [hlevel.demand] at hleft
    obtain ⟨hsum, hserved⟩ := ih hrest (listIdx + 1)
      (p := (updateLevel m p listIdx level).2) (by omega) hcarry₁
    have hasked : 0 ≤ (rest.map (·.requested)).sum := by
      apply sum_nonneg
      intro n hn
      obtain ⟨l, hl, rfl⟩ := mem_map.mp hn
      exact (hrest l hl).requested_nonneg
    rw [updateLevels_cons]
    refine ⟨?_, ?_, ?_⟩
    · rw [map_cons, sum_cons, map_cons, sum_cons, hsum, hworkers, hleft]
      omega
    · intro l hl
      obtain rfl | hl := mem_cons.mp hl
      · rw [hworkers, updateLevel_requested]
        exact hfair
      · exact hserved.fair l hl
    · refine pairwise_cons.mpr ⟨?_, hserved.ordered⟩
      -- workers are left for a lower level only if this one has all it asks for
      intro low hlow hpos
      rw [hworkers, updateLevel_requested]
      have hlow_le : low.workers ≤
          ((updateLevels m (updateLevel m p listIdx level).2 (listIdx + 1) rest).1.map
            (·.workers)).sum := by
        apply single_le_sum _ _ (mem_map_of_mem hlow)
        intro n hn
        obtain ⟨l, hl, rfl⟩ := mem_map.mp hn
        apply sum_nonneg
        intro n hn
        obtain ⟨c, hc, rfl⟩ := mem_map.mp hn
        exact (hserved.fair l hl c hc).nonneg
      rw [hsum, hleft] at hlow_le
      omega

end Levels

end OneTbb.Scheduler
