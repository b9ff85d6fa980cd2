import OneTbb.Scheduler.Demand
import OneTbb.Library.Positions
import Mathlib.Tactic.Ring

/-!
# An arena asks for what its flags say

A call that sets or clears a flag owes the market a request until it has made it. What
the calls under way owe and what the arena has asked for make up what the flags and
the external threads inside call for.
-/

namespace OneTbb.Scheduler

open List Option Job OneTbb.Scheduler.Flag

/-! ### A flag -/

/-- Sets and clears take turns, beginning with a set, and the last one says what the flag is. -/
structure Flag.Alternates (f : Flag) : Prop where
  turns : f.log.IsChain (· ≠ ·)
  first : f.log.getLast?.getD .set = .set
  last : f.log.head? = some .set ↔ f.test

/-- What a step of a call does to a flag: nothing that can be told, or one change. -/
inductive Flag.Changed (f g : Flag) : Option Change → Prop where
  | none (hlog : g.log = f.log) (htest : g.test = f.test) : Changed f g none
  | set (hlog : g.log = .set :: f.log) (hbefore : f.test = false) (hafter : g.test = true) :
      Changed f g (some .set)
  | clear (hlog : g.log = .clear :: f.log) (hbefore : f.test = true) (hafter : g.test = false) :
      Changed f g (some .clear)

variable {change : Option Change} {event : Event}

namespace Flag

theorem test_eq_false {f : Flag} : f.test = false ↔ f.state = .unset := by
  simp [test]

/-- `test_and_set` changes the flag exactly when it returns `true`. -/
theorem testAndSet_changed (f : Flag) (step : SetStep) :
    Changed f (f.testAndSet step).1
      ((f.testAndSet step).2.elim (fun _ => none)
        fun needed => if needed then some .set else none) := by
  cases step with
  | load =>
    cases hstate : f.state with
    | unset | set | busy =>
      simp only [testAndSet, hstate]
      exact .none rfl rfl
  | interrupt owner =>
    simp only [testAndSet]
    split_ifs with hbusy hset
    · exact .none rfl (by simp [test, hbusy])
    · exact .none rfl rfl
    · exact .none rfl rfl
  | exchange =>
    simp only [testAndSet]
    split_ifs with hunset
    · exact .set rfl (test_eq_false.mpr hunset) rfl
    · exact .none rfl rfl

/-- `try_clear_if` changes the flag exactly when it returns `true`. -/
theorem tryClearIf_changed (f : Flag) (owner : Nat) (places : List Place)
    (available : List Work) (step : ClearStep) :
    Changed f (f.tryClearIf owner places available step).1
      ((f.tryClearIf owner places available step).2.elim (fun _ => none)
        fun cleared => if cleared then some .clear else none) := by
  cases step with
  | load =>
    simp only [tryClearIf]
    split_ifs <;> exact .none rfl rfl
  | exchange =>
    simp only [tryClearIf]
    split_ifs with hset
    · exact .none rfl (by simp [test, hset])
    · exact .none rfl rfl
  | start => exact .none rfl rfl
  | check todo seen =>
    cases todo with
    | cons place todo =>
      simp only [tryClearIf]
      split_ifs <;> exact .none rfl rfl
    | nil =>
      simp only [tryClearIf]
      split_ifs with hbusy
      · exact .clear rfl (by simp [test, hbusy]) rfl
      · exact .none rfl rfl
  | restore =>
    simp only [tryClearIf]
    split_ifs with hbusy
    · exact .none rfl (by simp [test, hbusy])
    · exact .none rfl rfl

theorem alternates_initial : initial.Alternates where
  turns := List.IsChain.nil
  first := rfl
  last := by decide

theorem Alternates.changed {f g : Flag} (h : f.Alternates)
    (hchange : Changed f g change) : g.Alternates := by
  cases hchange with
  | none hlog htest =>
    exact ⟨hlog ▸ h.turns, hlog ▸ h.first, by rw [hlog, htest]; exact h.last⟩
  | set hlog hbefore hafter =>
    have hlast : f.log.head? ≠ some .set := fun hs => by
      have := h.last.mp hs
      simp [hbefore] at this
    constructor
    case turns =>
      rw [hlog]
      refine isChain_cons.mpr ⟨fun c hc => ?_, h.turns⟩
      rintro rfl
      exact hlast hc
    case first =>
      rw [hlog]
      cases hold : f.log with
      | nil => rfl
      | cons c rest =>
        rw [List.getLast?_cons_cons, ← hold]
        exact h.first
    case last => simp [hlog, hafter]
  | clear hlog hbefore hafter =>
    have hlast : f.log.head? = some .set := h.last.mpr hbefore
    obtain ⟨rest, hold⟩ : ∃ rest, f.log = .set :: rest := by
      cases hold : f.log with
      | nil => simp [hold] at hlast
      | cons c rest => exact ⟨rest, by rw [hold] at hlast; rw [some.inj hlast]⟩
    constructor
    case turns =>
      rw [hlog]
      refine isChain_cons.mpr ⟨fun c hc => ?_, h.turns⟩
      rintro rfl
      rw [hlast] at hc
      cases hc
    case first =>
      rw [hlog, hold, List.getLast?_cons_cons, ← hold]
      exact h.first
    case last => simp [hlog, hafter]

end Flag

/-! ### What the calls owe -/

/-- `1` for a call that has set a flag, `-1` for one that has cleared it. -/
def Change.sign : Option Change → Int
  | none => 0
  | some .set => 1
  | some .clear => -1

theorem Flag.Changed.test_toNat {f g : Flag} (h : f.Changed g change) :
    (g.test.toNat : Int) = f.test.toNat + Change.sign change := by
  cases h with
  | none _ htest => rw [htest]; exact (add_zero _).symm
  | set _ hbefore hafter | clear _ hbefore hafter => rw [hbefore, hafter]; rfl

/-- The workers that mandatory concurrency adds. -/
def Arena.mandatoryWorkers (a : Arena) : Int := if a.isArenaWorkerless then 1 else 0

/-- What a call still has to request. -/
def Job.owed (a : Arena) : Job → Request
  | .setPool _ isMandatoryNeeded =>
    (isMandatoryNeeded.toNat, isMandatoryNeeded.toNat * a.mandatoryWorkers)
  | .advertised isMandatoryNeeded areWorkersNeeded =>
    (isMandatoryNeeded.toNat,
      isMandatoryNeeded.toNat * a.mandatoryWorkers + areWorkersNeeded.toNat * a.maxNumWorkers)
  | .clearPool _ _ disableMandatory =>
    (-disableMandatory.toNat, -(disableMandatory.toNat * a.mandatoryWorkers))
  | .outOfWork disableMandatory releaseWorkers =>
    (-disableMandatory.toNat,
      -(disableMandatory.toNat * a.mandatoryWorkers + releaseWorkers.toNat * a.maxNumWorkers))
  | .leave _ => (0, 1)
  | _ => (0, 0)

theorem Activity.advertiseRequest_eq (a : Arena) (m p : Bool) :
    advertiseRequest a m p = (advertised m p).owed a := by
  unfold advertiseRequest owed Arena.mandatoryWorkers Arena.isArenaWorkerless
  by_cases h : a.maxNumWorkers = 0 <;> cases m <;> cases p <;> simp [h]

theorem Activity.outOfWorkRequest_eq (a : Arena) (m p : Bool) :
    outOfWorkRequest a m p = (outOfWork m p).owed a := by
  unfold outOfWorkRequest owed Arena.mandatoryWorkers Arena.isArenaWorkerless
  by_cases h : a.maxNumWorkers = 0 <;> cases m <;> cases p <;> simp [h]

/-- A call that has nothing to request ends without one. -/
theorem Job.owed_advertised (a : Arena) (m p : Bool) :
    (if m || p then some (advertised m p) else none).elim 0 (owed a) =
      (advertised m p).owed a := by
  cases m <;> cases p <;> simp [owed]
  rfl

theorem Job.owed_outOfWork (a : Arena) (m p : Bool) :
    (if m || p then some (outOfWork m p) else none).elim 0 (owed a) =
      (outOfWork m p).owed a := by
  cases m <;> cases p <;> simp [owed]
  rfl

namespace Activity

/-- The external threads in slots that workers could have. -/
def externals (a : Arena) (s : Activity) : Nat :=
  s.inside.countP (a.numReservedSlots ≤ ·)

/-- What the flags and the external threads call for. -/
def needed (a : Arena) (s : Activity) : Request :=
  ((s.mandatoryConcurrency.test.toNat : Int),
    (s.poolState.test.toNat * a.maxNumWorkers +
      s.mandatoryConcurrency.test.toNat * a.mandatoryWorkers - s.externals a : Int))

/-- What has been asked for, given what is still owed. -/
def due (a : Arena) (s : Activity) : Request :=
  s.needed a - (s.jobs.map (owed a)).sum

variable (a : Arena) (s : Activity)

theorem needed_setMandatory {flag : Flag} (h : s.mandatoryConcurrency.Changed flag change) :
    needed a { s with mandatoryConcurrency := flag } =
      s.needed a + (Change.sign change, Change.sign change * a.mandatoryWorkers) := by
  unfold needed
  rw [h.test_toNat]
  ext
  · rfl
  · change _ + (_ + _) * _ - (s.externals a : Int) = _ + _ * _ - (s.externals a : Int) + _ * _
    ring

theorem needed_setPool {flag : Flag} (h : s.poolState.Changed flag change) :
    needed a { s with poolState := flag } =
      s.needed a + (0, Change.sign change * a.maxNumWorkers) := by
  unfold needed
  rw [h.test_toNat]
  ext
  · exact (add_zero _).symm
  · change (_ + _) * _ + _ - (s.externals a : Int) = _ * _ + _ - (s.externals a : Int) + _ * _
    ring

/-- An external thread in a slot that a worker could have leaves. -/
theorem needed_leave {slot : Nat} (h : slot ∈ s.inside) :
    needed a { s with inside := s.inside.erase slot } =
      s.needed a + (0, if a.numReservedSlots ≤ slot then 1 else 0) := by
  have hcount := (perm_cons_erase h).countP_eq (a.numReservedSlots ≤ ·)
  rw [countP_cons] at hcount
  simp only [decide_eq_true_eq] at hcount
  unfold needed externals
  rw [hcount]
  ext
  · exact (add_zero _).symm
  · dsimp only [Prod.snd_add]
    split_ifs with hslot <;> omega

/-- A step of a call moves what it owes as the flags change, and a request pays for it. -/
theorem proceed_needed (job : Job) (hslot : ∀ slot, job = .enter slot → a.numReservedSlots ≤ slot) :
    (s.proceed a job).1.needed a + job.owed a =
      s.needed a + (s.proceed a job).2.1.elim 0 (owed a) + (s.proceed a job).2.2.getD 0 := by
  cases job with
  | setMandatory step =>
    have h := s.mandatoryConcurrency.testAndSet_changed step
    have hneeded := needed_setMandatory a s h
    simp only [proceed]
    rw [hneeded]
    cases (s.mandatoryConcurrency.testAndSet step).2 with
    | inl step => simp [owed, Change.sign]
    | inr needed => cases needed <;> simp [owed, Change.sign]
  | setPool step isMandatoryNeeded =>
    have h := s.poolState.testAndSet_changed step
    have hneeded := needed_setPool a s h
    simp only [proceed]
    rw [hneeded]
    cases (s.poolState.testAndSet step).2 with
    | inl step => simp [owed, Change.sign]
    | inr needed =>
      dsimp only [Sum.elim_inr]
      rw [owed_advertised, getD_none, add_zero, add_assoc]
      congr 1
      cases needed <;> ext <;> simp [owed, Change.sign, add_comm]
  | advertised m p =>
    simp only [proceed, advertiseRequest_eq]
    simp
  | clearMandatory owner step =>
    have h := s.mandatoryConcurrency.tryClearIf_changed owner [.fifo] s.available step
    have hneeded := needed_setMandatory a s h
    simp only [proceed]
    rw [hneeded]
    cases (s.mandatoryConcurrency.tryClearIf owner [.fifo] s.available step).2 with
    | inl step => simp [owed, Change.sign]
    | inr cleared => cases cleared <;> simp [owed, Change.sign]
  | clearPool owner step disableMandatory =>
    have h := s.poolState.tryClearIf_changed owner s.places s.available step
    have hneeded := needed_setPool a s h
    simp only [proceed]
    rw [hneeded]
    cases (s.poolState.tryClearIf owner s.places s.available step).2 with
    | inl step => simp [owed, Change.sign]
    | inr cleared =>
      dsimp only [Sum.elim_inr]
      rw [owed_outOfWork, getD_none, add_zero, add_assoc]
      congr 1
      cases cleared <;> ext <;> simp [owed, Change.sign, add_comm]
  | outOfWork m p =>
    simp only [proceed, outOfWorkRequest_eq]
    simp
  | enter slot =>
    have := hslot slot rfl
    simp [proceed, needed, externals, owed, this]
    omega
  | leave slot | release slot => simp [proceed, owed]

theorem proceed_frame (job : Job) :
    (s.proceed a job).1.limit = s.limit ∧ (s.proceed a job).1.available = s.available ∧
      (s.proceed a job).1.nextWork = s.nextWork ∧ (s.proceed a job).1.jobs = s.jobs := by
  cases job <;> exact ⟨rfl, rfl, rfl, rfl⟩

end Activity

/-! ### What a check has not yet seen -/

/-- Work that was available when the check began, and is not taken, is at a place the check
has still to look at. -/
def ClearStep.Covers (scope : Place → Prop) (s : Activity) : ClearStep → Prop
  | .check todo seen =>
    ∀ w ∈ seen, w.id < s.nextWork ∧ (scope w.place → w ∈ s.available → w.place ∈ todo)
  | _ => True

def Job.Covers (s : Activity) : Job → Prop
  | .clearMandatory _ step => step.Covers (· = .fifo) s
  | .clearPool _ step _ => step.Covers (fun _ => True) s
  | _ => True

/-- The work that is available is old or new: nothing that was taken comes back. -/
structure Activity.NoReturn (s t : Activity) : Prop where
  nextWork : s.nextWork ≤ t.nextWork
  available : ∀ w ∈ t.available, w.id < s.nextWork → w ∈ s.available

theorem Activity.NoReturn.of_eq {s t : Activity} (hnext : t.nextWork = s.nextWork)
    (havailable : t.available = s.available) : s.NoReturn t where
  nextWork := hnext.ge
  available := fun _ hw _ => havailable ▸ hw

theorem ClearStep.Covers.mono {scope : Place → Prop} {s t : Activity} {step : ClearStep}
    (h : step.Covers scope s) (hst : s.NoReturn t) : step.Covers scope t := by
  cases step with
  | check todo seen =>
    intro w hw
    obtain ⟨hid, hplace⟩ := h w hw
    exact ⟨hid.trans_le hst.nextWork, fun hscope hmem =>
      hplace hscope (hst.available w hmem hid)⟩
  | _ => trivial

theorem Job.Covers.mono {s t : Activity} {job : Job} (h : job.Covers s) (hst : s.NoReturn t) :
    job.Covers t := by
  cases job with
  | clearMandatory owner step =>
    exact (show step.Covers (· = .fifo) s from h).mono hst
  | clearPool owner step m =>
    exact (show step.Covers (fun _ => True) s from h).mono hst
  | _ => trivial

/-- A check that finds nothing at a place goes on with what it has not yet seen. -/
theorem Flag.tryClearIf_covers (f : Flag) (owner : Nat) {places : List Place}
    {scope : Place → Prop} {s : Activity} {step next : ClearStep}
    (hplaces : ∀ w ∈ s.available, w.id < s.nextWork ∧ (scope w.place → w.place ∈ places))
    (h : step.Covers scope s)
    (hnext : (f.tryClearIf owner places s.available step).2 = .inl next) :
    next.Covers scope s := by
  cases step with
  | load | exchange =>
    simp only [tryClearIf] at hnext
    split_ifs at hnext
    cases hnext
    trivial
  | start =>
    cases hnext
    exact fun w hw => ⟨(hplaces w hw).1, fun hscope _ => (hplaces w hw).2 hscope⟩
  | check todo seen =>
    cases todo with
    | nil =>
      simp only [tryClearIf] at hnext
      split_ifs at hnext
    | cons place todo =>
      simp only [tryClearIf] at hnext
      split_ifs at hnext with hany
      · cases hnext
        trivial
      · cases hnext
        intro w hw
        refine ⟨(h w hw).1, fun hscope hmem => ?_⟩
        refine (mem_cons.mp ((h w hw).2 hscope hmem)).resolve_left fun hplace => hany ?_
        exact any_eq_true.mpr ⟨w, hmem, decide_eq_true hplace⟩
  | restore => cases hnext

namespace Activity

/-- What holds of the flags, the work and the calls under way. -/
structure Sound (a : Arena) (s : Activity) : Prop where
  mandatory : s.mandatoryConcurrency.Alternates
  pool : s.poolState.Alternates
  work : ∀ w ∈ s.available, w.id < s.nextWork ∧ w.place ∈ s.places
  enter : ∀ slot, .enter slot ∈ s.jobs → a.numReservedSlots ≤ slot
  covers : ∀ job ∈ s.jobs, job.Covers s

theorem sound_initial (a : Arena) : initial.Sound a where
  mandatory := alternates_initial
  pool := alternates_initial
  work := nofun
  enter := nofun
  covers := nofun

variable {a : Arena} {s : Activity}

theorem places_mono {t : Activity} (h : s.limit ≤ t.limit) {place : Place}
    (hplace : place ∈ s.places) : place ∈ t.places := by
  obtain hslot | hother := mem_append.mp hplace
  · obtain ⟨k, hk, rfl⟩ := mem_map.mp hslot
    exact mem_append_left _ (mem_map.mpr
      ⟨k, mem_range.mpr ((mem_range.mp hk).trans_le h), rfl⟩)
  · exact mem_append_right _ hother

/-- The next step of a call keeps the flags in order and covers what its check covers. -/
theorem Sound.proceed (h : s.Sound a) {job : Job} (hjob : job ∈ s.jobs) :
    (s.proceed a job).1.mandatoryConcurrency.Alternates ∧
      (s.proceed a job).1.poolState.Alternates ∧
      ∀ next, (s.proceed a job).2.1 = some next → next.Covers s ∧ ∀ slot, next ≠ .enter slot := by
  have hcovers := h.covers job hjob
  cases job with
  | setMandatory step =>
    refine ⟨h.mandatory.changed (s.mandatoryConcurrency.testAndSet_changed step), h.pool, ?_⟩
    intro next hnext
    simp only [Activity.proceed] at hnext
    cases hnext
    cases (s.mandatoryConcurrency.testAndSet step).2 with
    | inl step | inr needed => exact ⟨trivial, nofun⟩
  | setPool step m =>
    refine ⟨h.mandatory, h.pool.changed (s.poolState.testAndSet_changed step), ?_⟩
    intro next hnext
    simp only [Activity.proceed] at hnext
    cases hresult : (s.poolState.testAndSet step).2 with
    | inl step =>
      rw [hresult] at hnext
      cases hnext
      exact ⟨trivial, nofun⟩
    | inr needed =>
      rw [hresult] at hnext
      obtain ⟨-, hnext⟩ := ite_none_right_eq_some.mp hnext
      cases hnext
      exact ⟨trivial, nofun⟩
  | clearMandatory owner step =>
    refine ⟨h.mandatory.changed
      (s.mandatoryConcurrency.tryClearIf_changed owner [.fifo] s.available step), h.pool, ?_⟩
    intro next hnext
    simp only [Activity.proceed] at hnext
    cases hnext
    cases hresult : (s.mandatoryConcurrency.tryClearIf owner [.fifo] s.available step).2 with
    | inl step' =>
      have hstep : step.Covers (· = .fifo) s := hcovers
      refine ⟨tryClearIf_covers _ _ (fun w hw => ⟨(h.work w hw).1, fun hfifo => ?_⟩)
        hstep hresult, nofun⟩
      exact hfifo ▸ mem_singleton_self _
    | inr cleared => exact ⟨trivial, nofun⟩
  | clearPool owner step m =>
    refine ⟨h.mandatory,
      h.pool.changed (s.poolState.tryClearIf_changed owner s.places s.available step), ?_⟩
    intro next hnext
    simp only [Activity.proceed] at hnext
    cases hresult : (s.poolState.tryClearIf owner s.places s.available step).2 with
    | inl step' =>
      rw [hresult] at hnext
      cases hnext
      have hstep : step.Covers (fun _ => True) s := hcovers
      exact ⟨tryClearIf_covers _ _
        (fun w hw => ⟨(h.work w hw).1, fun _ => (h.work w hw).2⟩) hstep hresult, nofun⟩
    | inr cleared =>
      rw [hresult] at hnext
      obtain ⟨-, hnext⟩ := ite_none_right_eq_some.mp hnext
      cases hnext
      exact ⟨trivial, nofun⟩
  | leave slot =>
    refine ⟨h.mandatory, h.pool, fun next hnext => ?_⟩
    cases hnext
    exact ⟨trivial, nofun⟩
  | advertised | outOfWork | enter | release => exact ⟨h.mandatory, h.pool, nofun⟩

variable {t : Activity}

/-- Work and calls are old, or new and as they should be. -/
theorem Sound.update (h : s.Sound a) (hmandatory : t.mandatoryConcurrency.Alternates)
    (hpool : t.poolState.Alternates) (hlimit : s.limit ≤ t.limit) (hreturn : s.NoReturn t)
    (hwork : ∀ w ∈ t.available, w ∈ s.available ∨ w.id < t.nextWork ∧ w.place ∈ t.places)
    (hjobs : ∀ job ∈ t.jobs, job ∈ s.jobs ∨
      job.Covers t ∧ ∀ slot, job = .enter slot → a.numReservedSlots ≤ slot) : t.Sound a where
  mandatory := hmandatory
  pool := hpool
  work := by
    intro w hw
    obtain hold | hnew := hwork w hw
    · obtain ⟨hid, hplace⟩ := h.work w hold
      exact ⟨hid.trans_le hreturn.nextWork, places_mono hlimit hplace⟩
    · exact hnew
  enter := by
    intro slot hslot
    obtain hold | hnew := hjobs _ hslot
    · exact h.enter slot hold
    · exact hnew.2 slot rfl
  covers := by
    intro job hjob
    obtain hold | hnew := hjobs job hjob
    · exact (h.covers job hold).mono hreturn
    · exact hnew.1

theorem Sound.addJob (h : s.Sound a) (job : Job) (hcovers : job.Covers t)
    (henter : ∀ slot, job = .enter slot → a.numReservedSlots ≤ slot)
    (hmandatory : t.mandatoryConcurrency = s.mandatoryConcurrency)
    (hpool : t.poolState = s.poolState) (hlimit : s.limit ≤ t.limit)
    (hnext : t.nextWork = s.nextWork) (havailable : t.available = s.available)
    (hjobs : t.jobs = s.jobs ++ [job]) : t.Sound a := by
  apply h.update (hmandatory ▸ h.mandatory) (hpool ▸ h.pool) hlimit (.of_eq hnext havailable)
  · exact fun w hw => .inl (havailable ▸ hw)
  · intro job' hjob'
    rw [hjobs] at hjob'
    obtain hold | hnew := mem_append.mp hjob'
    · exact .inl hold
    · obtain rfl := mem_singleton.mp hnew
      exact .inr ⟨hcovers, henter⟩

theorem Sound.step (h : s.Sound a) {request : Option Request}
    (ht : s.step a event = some (t, request)) : t.Sound a := by
  cases event with
  | makeAvailable place =>
    obtain ⟨hplace, ht⟩ := ite_none_right_eq_some.mp ht
    cases ht
    refine h.update h.mandatory h.pool le_rfl ⟨Nat.le_succ _, ?_⟩ ?_ fun job hjob => .inl hjob
    · intro w hw hid
      obtain rfl | hold := mem_cons.mp hw
      · exact absurd hid (lt_irrefl _)
      · exact hold
    · intro w hw
      obtain rfl | hold := mem_cons.mp hw
      · exact .inr ⟨Nat.lt_succ_self _, hplace⟩
      · exact .inl hold
  | take i =>
    obtain ⟨-, ht⟩ := ite_none_right_eq_some.mp ht
    cases ht
    exact h.update h.mandatory h.pool le_rfl
      ⟨le_rfl, fun w hw _ => mem_of_mem_eraseIdx hw⟩
      (fun w hw => .inl (mem_of_mem_eraseIdx hw)) fun job hjob => .inl hjob
  | occupy k =>
    obtain ⟨-, ht⟩ := ite_none_right_eq_some.mp ht
    cases ht
    exact h.update h.mandatory h.pool (le_max_left _ _) (.of_eq rfl rfl)
      (fun w hw => .inl hw) fun job hjob => .inl hjob
  | advertiseNewWork workType =>
    cases ht
    refine h.addJob _ ?_ ?_ rfl rfl le_rfl rfl rfl rfl
    · split_ifs <;> trivial
    · intro slot hslot
      split_ifs at hslot
  | outOfWork =>
    cases ht
    exact h.addJob (.clearMandatory s.nextOwner .load) trivial nofun
      rfl rfl le_rfl rfl rfl rfl
  | enter slot =>
    obtain ⟨-, ht⟩ := ite_none_right_eq_some.mp ht
    split_ifs at ht with hreserved
    · cases ht
      refine h.addJob (.enter slot) trivial (fun slot' hslot => ?_)
        rfl rfl (le_max_left _ _) rfl rfl rfl
      cases hslot
      exact hreserved
    · cases ht
      exact h.update h.mandatory h.pool (le_max_left _ _) (.of_eq rfl rfl)
        (fun w hw => .inl hw) fun job hjob => .inl hjob
  | leave slot =>
    obtain ⟨-, ht⟩ := ite_none_right_eq_some.mp ht
    cases ht
    refine h.addJob _ ?_ ?_ rfl rfl le_rfl rfl rfl rfl
    · split_ifs <;> trivial
    · intro slot' hslot
      split_ifs at hslot
  | proceed i =>
    obtain ⟨job, hi, ht⟩ := map_eq_some_iff.mp ht
    obtain ⟨rfl, -⟩ := Prod.ext_iff.mp ht
    have hjob := mem_of_getElem? hi
    obtain ⟨hmandatory, hpool, hnext⟩ := h.proceed hjob
    obtain ⟨hlimit, havailable, hnextWork, hjobs⟩ := proceed_frame a s job
    refine h.update hmandatory hpool hlimit.ge (.of_eq hnextWork havailable)
      (fun w hw => .inl (havailable ▸ hw)) fun job' hjob' => ?_
    dsimp only at hjob'
    rw [hjobs] at hjob'
    cases hleft : (s.proceed a job).2.1 with
    | none =>
      rw [hleft] at hjob'
      exact .inl (mem_of_mem_eraseIdx hjob')
    | some next =>
      rw [hleft] at hjob'
      obtain hold | rfl := mem_or_eq_of_mem_set hjob'
      · exact .inl hold
      · obtain ⟨hcovers, henter⟩ := hnext _ hleft
        exact .inr ⟨hcovers.mono (.of_eq hnextWork havailable),
          fun slot hslot => absurd hslot (henter slot)⟩

/-- A call begins that owes what its beginning adds to the need. -/
theorem due_addJob (job : Job) (hneeded : t.needed a = s.needed a + job.owed a)
    (hjobs : t.jobs = s.jobs ++ [job]) : t.due a = s.due a + (none : Option Request).getD 0 := by
  rw [getD_none, add_zero]
  unfold due
  rw [hneeded, hjobs, map_append, sum_append, map_singleton, sum_singleton]
  abel

theorem due_addJob_of_zero (job : Job) (hneeded : t.needed a = s.needed a)
    (howed : job.owed a = 0) (hjobs : t.jobs = s.jobs ++ [job]) :
    t.due a = s.due a + (none : Option Request).getD 0 :=
  due_addJob job (by rw [hneeded, howed, add_zero]) hjobs

/-- What has been asked for changes by what is requested. -/
theorem Sound.due_step (h : s.Sound a) {request : Option Request}
    (ht : s.step a event = some (t, request)) : t.due a = s.due a + request.getD 0 := by
  cases event with
  | makeAvailable place | take i | occupy k =>
    obtain ⟨-, ht⟩ := ite_none_right_eq_some.mp ht
    cases ht
    exact (add_zero _).symm
  | advertiseNewWork workType =>
    cases ht
    refine due_addJob_of_zero _ rfl ?_ rfl
    split_ifs
    · rfl
    · simp [owed]
  | outOfWork =>
    cases ht
    exact due_addJob_of_zero (.clearMandatory s.nextOwner .load) rfl rfl rfl
  | enter slot =>
    obtain ⟨-, ht⟩ := ite_none_right_eq_some.mp ht
    split_ifs at ht with hreserved
    · cases ht
      exact due_addJob_of_zero (.enter slot) rfl rfl rfl
    · cases ht
      simp [due, needed, externals, hreserved]
  | leave slot =>
    obtain ⟨hinside, ht⟩ := ite_none_right_eq_some.mp ht
    cases ht
    refine due_addJob _ ((needed_leave a s hinside).trans ?_) rfl
    split_ifs <;> rfl
  | proceed i =>
    obtain ⟨job, hi, ht⟩ := map_eq_some_iff.mp ht
    cases ht
    have hpay := proceed_needed a s job fun slot hslot =>
      h.enter slot (hslot ▸ mem_of_getElem? hi)
    obtain ⟨-, -, -, hjobs⟩ := proceed_frame a s job
    have hneeded : (s.proceed a job).1.needed a = s.needed a +
        (s.proceed a job).2.1.elim 0 (owed a) + (s.proceed a job).2.2.getD 0 - job.owed a :=
      eq_sub_of_add_eq hpay
    change (s.proceed a job).1.needed a - (map (owed a)
      ((s.proceed a job).2.1.elim ((s.proceed a job).1.jobs.eraseIdx i)
        ((s.proceed a job).1.jobs.set i))).sum = s.due a + (s.proceed a job).2.2.getD 0
    rw [hneeded, hjobs]
    unfold due
    cases (s.proceed a job).2.1 with
    | none =>
      simp only [elim_none]
      rw [Positions.sum_map_eraseIdx _ hi]
      abel
    | some next =>
      simp only [elim_some]
      rw [Positions.sum_map_set _ hi]
      abel

/-! ### A flag is cleared only without work -/

/-- Only the last step of a check clears the flag. -/
theorem check_of_clear {f : Flag} {owner : Nat} {places : List Place} {available : List Work}
    {step : ClearStep}
    (h : (f.tryClearIf owner places available step).1.log = .clear :: f.log) :
    ∃ seen, step = .check [] seen := by
  have hne : f.log ≠ .clear :: f.log := (cons_ne_self _ _).symm
  cases step with
  | load | exchange =>
    simp only [tryClearIf] at h
    split_ifs at h <;> exact absurd h hne
  | start => exact absurd h hne
  | check todo seen =>
    cases todo with
    | nil => exact ⟨seen, rfl⟩
    | cons place todo =>
      simp only [tryClearIf] at h
      split_ifs at h <;> exact absurd h hne
  | restore =>
    simp only [tryClearIf] at h
    split_ifs at h <;> exact absurd h hne

theorem log_ne_clear {f g : Flag} (h : f.Changed g change)
    (hne : change ≠ some .clear) : g.log ≠ .clear :: f.log := by
  intro hlog
  cases h with
  | none hsame => exact cons_ne_self _ _ (hlog.symm.trans hsame)
  | set hset =>
    have := (List.cons.inj (hlog.symm.trans hset)).1
    cases this
  | clear => exact hne rfl

theorem log_ne_clear_of_testAndSet (f : Flag) (step : SetStep) :
    (f.testAndSet step).1.log ≠ .clear :: f.log := by
  refine log_ne_clear (f.testAndSet_changed step) ?_
  cases (f.testAndSet step).2 with
  | inl next => exact nofun
  | inr needed => cases needed <;> exact nofun

theorem step_flags {request : Option Request} (ht : s.step a event = some (t, request)) :
    (t.mandatoryConcurrency = s.mandatoryConcurrency ∧ t.poolState = s.poolState) ∨
      ∃ i job, event = .proceed i ∧ s.jobs[i]? = some job ∧
        t.mandatoryConcurrency = (s.proceed a job).1.mandatoryConcurrency ∧
        t.poolState = (s.proceed a job).1.poolState := by
  cases event with
  | proceed i =>
    obtain ⟨job, hi, ht⟩ := map_eq_some_iff.mp ht
    cases ht
    exact .inr ⟨i, job, rfl, hi, rfl, rfl⟩
  | enter slot =>
    obtain ⟨-, ht⟩ := ite_none_right_eq_some.mp ht
    split_ifs at ht <;>
    · cases ht
      exact .inl ⟨rfl, rfl⟩
  | makeAvailable | take | occupy | leave =>
    obtain ⟨-, ht⟩ := ite_none_right_eq_some.mp ht
    cases ht
    exact .inl ⟨rfl, rfl⟩
  | advertiseNewWork | outOfWork =>
    cases ht
    exact .inl ⟨rfl, rfl⟩

/-- When mandatory concurrency ends, no enqueued work is left of what the check could see. -/
theorem Sound.clear_mandatory (h : s.Sound a) {request : Option Request}
    (ht : s.step a event = some (t, request))
    (hclear : t.mandatoryConcurrency.log = .clear :: s.mandatoryConcurrency.log) :
    ∃ i owner seen, event = .proceed i ∧
      s.jobs[i]? = some (.clearMandatory owner (.check [] seen)) ∧
        ∀ w ∈ seen, w.place = .fifo → w ∉ s.available := by
  have hne : s.mandatoryConcurrency.log ≠ .clear :: s.mandatoryConcurrency.log :=
    (cons_ne_self _ _).symm
  obtain ⟨hsame, -⟩ | ⟨i, job, hevent, hjob, hflag, -⟩ := step_flags ht
  · rw [hsame] at hclear
    exact absurd hclear hne
  · rw [hflag] at hclear
    cases job with
    | clearMandatory owner step =>
      obtain ⟨seen, rfl⟩ := check_of_clear hclear
      refine ⟨i, owner, seen, hevent, hjob, fun w hw hfifo hmem => ?_⟩
      exact not_mem_nil ((h.covers _ (mem_of_getElem? hjob) w hw).2 hfifo hmem)
    | setMandatory step => exact absurd hclear (log_ne_clear_of_testAndSet _ _)
    | _ => exact absurd hclear hne

/-- When the pool is found empty, no work is left of what the check could see. -/
theorem Sound.clear_pool (h : s.Sound a) {request : Option Request}
    (ht : s.step a event = some (t, request))
    (hclear : t.poolState.log = .clear :: s.poolState.log) :
    ∃ i owner seen disableMandatory, event = .proceed i ∧
      s.jobs[i]? = some (.clearPool owner (.check [] seen) disableMandatory) ∧
        ∀ w ∈ seen, w ∉ s.available := by
  have hne : s.poolState.log ≠ .clear :: s.poolState.log := (cons_ne_self _ _).symm
  obtain ⟨-, hsame⟩ | ⟨i, job, hevent, hjob, -, hflag⟩ := step_flags ht
  · rw [hsame] at hclear
    exact absurd hclear hne
  · rw [hflag] at hclear
    cases job with
    | clearPool owner step m =>
      obtain ⟨seen, rfl⟩ := check_of_clear hclear
      refine ⟨i, owner, seen, m, hevent, hjob, fun w hw hmem => ?_⟩
      exact not_mem_nil ((h.covers _ (mem_of_getElem? hjob) w hw).2 trivial hmem)
    | setPool step m => exact absurd hclear (log_ne_clear_of_testAndSet _ _)
    | _ => exact absurd hclear hne

end Activity

/-! ### Any interleaving of calls -/

/-- What an arena has asked for. -/
def Arena.asked (a : Arena) : Request := (a.mandatoryRequests, a.totalNumWorkersRequested)

theorem Arena.request_asked (a : Arena) (request : Option Request) :
    (a.request request).asked = a.asked + request.getD 0 := by
  cases request with
  | none => exact (add_zero _).symm
  | some r => rfl

theorem Activity.due_request (a : Arena) (s : Activity) (request : Option Request) :
    s.due (a.request request) = s.due a := by
  cases request with
  | none | some r => rfl

theorem Activity.Sound.request {a : Arena} {s : Activity} (h : s.Sound a)
    (request : Option Request) : s.Sound (a.request request) := by
  cases request with
  | none => exact h
  | some r => exact ⟨h.mandatory, h.pool, h.work, h.enter, h.covers⟩

namespace ArenaState

/-- The arena has asked for what is due. -/
structure Sound (s : ArenaState) : Prop where
  activity : s.activity.Sound s.arena
  asked : s.arena.asked = s.activity.due s.arena

theorem sound_create (numSlots numReservedSlots : Nat) :
    (create numSlots numReservedSlots).Sound where
  activity := Activity.sound_initial _
  asked := by simp [create, Activity.due, Activity.needed, Activity.externals, Activity.initial,
    Arena.asked, Arena.create, initial, test]

theorem Sound.step {s t : ArenaState} (h : s.Sound) (ht : s.step event = some t) : t.Sound := by
  obtain ⟨⟨activity, request⟩, hstep, rfl⟩ := map_eq_some_iff.mp ht
  constructor
  case activity => exact (h.activity.step hstep).request request
  case asked =>
    change (s.arena.request request).asked = activity.due (s.arena.request request)
    rw [Arena.request_asked, Activity.due_request, h.activity.due_step hstep, h.asked]

theorem Sound.run {s t : ArenaState} (h : s.Sound) (run : s.Run t) : t.Sound :=
  Transition.run_preserves (fun _ _ h ⟨_, hstep⟩ => h.step hstep) run h

end ArenaState

/-- In every interleaving of calls on an arena, sets and clears of each flag take turns, and
no flag is cleared while work that was available when the check began is not taken. When
no call is under way, the arena has asked for what the flags say, less the external
threads in slots of workers. -/
theorem arena_demand_accounts (numSlots numReservedSlots : Nat) {s : ArenaState}
    (run : (ArenaState.create numSlots numReservedSlots).Run s) :
    (s.activity.mandatoryConcurrency.Alternates ∧ s.activity.poolState.Alternates) ∧
      (∀ event t, s.step event = some t →
        (t.activity.mandatoryConcurrency.log = .clear :: s.activity.mandatoryConcurrency.log →
          ∃ i owner seen, event = .proceed i ∧
            s.activity.jobs[i]? = some (.clearMandatory owner (.check [] seen)) ∧
              ∀ w ∈ seen, w.place = .fifo → w ∉ s.activity.available) ∧
        (t.activity.poolState.log = .clear :: s.activity.poolState.log →
          ∃ i owner seen m, event = .proceed i ∧
            s.activity.jobs[i]? = some (.clearPool owner (.check [] seen) m) ∧
              ∀ w ∈ seen, w ∉ s.activity.available)) ∧
      (s.activity.jobs = [] →
        s.arena.mandatoryRequests = (if s.activity.mandatoryConcurrency.test then 1 else 0) ∧
        s.arena.totalNumWorkersRequested =
          (if s.activity.poolState.test then (s.arena.maxNumWorkers : Int) else 0) +
            (if s.arena.isArenaWorkerless && s.activity.mandatoryConcurrency.test then 1 else 0) -
            s.activity.externals s.arena) := by
  have hsound := (ArenaState.sound_create numSlots numReservedSlots).run run
  refine ⟨⟨hsound.activity.mandatory, hsound.activity.pool⟩, ?_, ?_⟩
  · intro event t ht
    obtain ⟨⟨activity, request⟩, hstep, rfl⟩ := map_eq_some_iff.mp ht
    exact ⟨hsound.activity.clear_mandatory hstep, hsound.activity.clear_pool hstep⟩
  · intro hquiet
    have hasked := hsound.asked
    unfold Activity.due at hasked
    rw [hquiet, map_nil, sum_nil, sub_zero] at hasked
    obtain ⟨hmandatory, htotal⟩ := Prod.ext_iff.mp hasked
    have hmandatory : s.arena.mandatoryRequests =
        s.activity.mandatoryConcurrency.test.toNat := hmandatory
    have htotal : s.arena.totalNumWorkersRequested =
        s.activity.poolState.test.toNat * s.arena.maxNumWorkers +
          s.activity.mandatoryConcurrency.test.toNat * s.arena.mandatoryWorkers -
          s.activity.externals s.arena := htotal
    rw [hmandatory, htotal]
    unfold Arena.mandatoryWorkers
    cases s.activity.mandatoryConcurrency.test <;> cases s.activity.poolState.test <;>
      simp

/-- Work is enqueued in an arena of one worker, and then an external thread takes the slot
of the worker. -/
def enqueueAndEnter : List Event :=
  [.makeAvailable .fifo, .advertiseNewWork .workEnqueued, .proceed 0, .proceed 0, .proceed 0,
    .proceed 0, .proceed 0, .enter 1, .proceed 0]

theorem arena_demand_accounts_enter : ∃ s : ArenaState,
    (ArenaState.create 2 1).Run s ∧ s.activity.jobs = [] ∧
      s.arena.mandatoryRequests = 1 ∧ s.arena.totalNumWorkersRequested = 0 := by
  have hevents : (enqueueAndEnter.foldlM ArenaState.step (ArenaState.create 2 1)).map (fun s =>
      (s.activity.jobs, s.activity.mandatoryConcurrency.test, s.activity.poolState.test,
        s.arena.maxNumWorkers, s.activity.externals s.arena)) = some ([], true, true, 1, 1) := by
    decide +kernel
  obtain ⟨s, hs, hread⟩ := map_eq_some_iff.mp hevents
  simp only [Prod.mk.injEq] at hread
  obtain ⟨hquiet, hmandatory, hpool, hmax, hexternals⟩ := hread
  have run : (ArenaState.create 2 1).Run s := Transition.run_of_foldlM hs
  obtain ⟨hrequests, htotal⟩ := (arena_demand_accounts 2 1 run).2.2 hquiet
  refine ⟨s, run, hquiet, ?_, ?_⟩
  · rw [hrequests, hmandatory]
    rfl
  · rw [htotal, hpool, hmax, hexternals, Arena.isArenaWorkerless, hmax]
    rfl

end OneTbb.Scheduler
