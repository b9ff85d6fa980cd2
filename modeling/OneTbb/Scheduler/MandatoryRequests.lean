import OneTbb.Scheduler.ThreadRequests

/-!
# Mandatory requests and the limit of the serializer

The owner of the write lock is alone with it, so it finds no limit that another owner is
still to set. Whoever made the number of mandatory requests disagree with the limit is
still to act, unless a limit of zero is set while mandatory concurrency is enabled.
-/

namespace OneTbb.Scheduler.ThreadRequests

open Option List Relation Positions

/-! ### The lock -/

/-- How a call holds the lock. -/
inductive Role where
  | outside
  | retreating
  | reading
  | awaiting
  | acting
  | setting
  deriving DecidableEq, Repr

def Job.role : Job → Role
  | .lockShared _ | .addReader _ | .lock _ | .loadPending _ | .setPending _ | .exchange
  | .apply _ => .outside
  | .retreat _ => .retreating
  | .register _ | .unlockShared | .upgrade _ | .reacquire _ => .reading
  | .awaitReaders _ => .awaiting
  | .locked _ | .unlock => .acting
  | .setLimit => .setting

/-- What a call is to do once it has the write lock. -/
def Job.work : Job → Option Work
  | .upgrade work | .awaitReaders work | .reacquire work | .lock work | .loadPending work
  | .setPending work | .locked work => some work
  | _ => none

/-- The steps that only acquire and release the lock. -/
def Job.isLocking : Job → Bool
  | .register _ | .locked _ | .setLimit | .exchange | .apply _ => false
  | _ => true

/-- The numbers of calls that hold the lock. -/
structure Tally where
  retreating : Nat
  reading : Nat
  awaiting : Nat
  acting : Nat
  setting : Nat

def Tally.add (n : Tally) : Role → Tally
  | .outside => n
  | .retreating => { n with retreating := n.retreating + 1 }
  | .reading => { n with reading := n.reading + 1 }
  | .awaiting => { n with awaiting := n.awaiting + 1 }
  | .acting => { n with acting := n.acting + 1 }
  | .setting => { n with setting := n.setting + 1 }

theorem Tally.add_comm (n : Tally) (a b : Role) : (n.add a).add b = (n.add b).add a := by
  cases a <;> cases b <;> rfl

def tally : List Job → Tally
  | [] => ⟨0, 0, 0, 0, 0⟩
  | job :: jobs => (tally jobs).add job.role

theorem tally_split (before after : List Job) (job : Job) :
    tally (before ++ job :: after) = (tally (before ++ after)).add job.role := by
  induction before with
  | nil => rfl
  | cons first before ih =>
    simp only [cons_append, tally, ih]
    exact Tally.add_comm _ _ _

/-- The call at a position counts for its role, before a step and after it. -/
theorem tally_advanced {jobs : List Job} {i : Nat} {job : Job} (hi : jobs[i]? = some job) :
    ∃ others : Tally, tally jobs = others.add job.role ∧ ∀ next : Option Job,
      tally (next.elim (jobs.eraseIdx i) (jobs.set i)) =
        others.add (next.elim .outside Job.role) := by
  obtain ⟨before, after, hjobs, herase, hset⟩ := exists_split hi
  refine ⟨tally (before ++ after), hjobs ▸ tally_split before after job, fun next => ?_⟩
  cases next with
  | none => exact congrArg tally herase
  | some next => exact (congrArg tally (hset next)).trans (tally_split before after next)

/-- The word says how the calls hold the lock. One call at most owns the bit of the writer,
and none reads while it acts. -/
structure Locked (n : Tally) (m : RwMutex) (writing : Option Int) : Prop where
  readers : n.retreating + n.reading + n.awaiting = m.readers
  owner : n.awaiting + n.acting + n.setting = m.writer.toNat
  exclusive : 0 < n.acting + n.setting → n.reading = 0
  pending : 0 < n.awaiting → m.writerPending = true
  writing : n.setting = writing.isSome.toNat

namespace Locked

variable {n : Tally} {m : RwMutex} {writing : Option Int}

theorem setPending (h : Locked n m writing) :
    Locked n { m with writerPending := true } writing :=
  ⟨h.readers, h.owner, h.exclusive, fun _ => rfl, h.writing⟩

/-- A reader is let in only without a writer. Otherwise it is counted for a while. -/
theorem addReader (h : Locked n m writing) :
    Locked (n.add (if m.hasWriter then .retreating else .reading))
      { m with readers := m.readers + 1 } writing := by
  obtain ⟨hreaders, howner, hexclusive, hpending, hwriting⟩ := h
  cases hwriter : m.hasWriter with
  | true =>
    refine ⟨?_, howner, hexclusive, hpending, hwriting⟩
    change n.retreating + 1 + n.reading + n.awaiting = m.readers + 1
    omega
  | false =>
    obtain ⟨hfree, -⟩ := Bool.or_eq_false_iff.mp hwriter
    refine ⟨?_, howner, fun hacting => ?_, hpending, hwriting⟩
    · change n.retreating + (n.reading + 1) + n.awaiting = m.readers + 1
      omega
    · have hacting : 0 < n.acting + n.setting := hacting
      rw [hfree, Bool.toNat_false] at howner
      omega

theorem retreat (h : Locked (n.add .retreating) m writing) :
    Locked n { m with readers := m.readers - 1 } writing := by
  obtain ⟨hreaders, howner, hexclusive, hpending, hwriting⟩ := h
  refine ⟨?_, howner, hexclusive, hpending, hwriting⟩
  have hreaders : n.retreating + 1 + n.reading + n.awaiting = m.readers := hreaders
  change n.retreating + n.reading + n.awaiting = m.readers - 1
  omega

theorem unlockShared (h : Locked (n.add .reading) m writing) :
    Locked n { m with readers := m.readers - 1 } writing := by
  obtain ⟨hreaders, howner, hexclusive, hpending, hwriting⟩ := h
  have hreaders : n.retreating + (n.reading + 1) + n.awaiting = m.readers := hreaders
  refine ⟨?_, howner, fun hacting => absurd (hexclusive hacting) (Nat.succ_ne_zero _), hpending,
    hwriting⟩
  change n.retreating + n.reading + n.awaiting = m.readers - 1
  omega

/-- The reader that sets the bits of a writer is the first one to do so: an owner that acts
has no readers beside it, and one that waits is a reader itself and has set the bits. -/
theorem claim (h : Locked (n.add .reading) m writing)
    (hclaim : m.readers = 1 ∨ m.writerPending = false) :
    Locked (n.add .awaiting) { m with writer := true, writerPending := true } writing := by
  obtain ⟨hreaders, howner, hexclusive, hpending, hwriting⟩ := h
  have hreaders : n.retreating + (n.reading + 1) + n.awaiting = m.readers := hreaders
  have hnone : n.acting + n.setting = 0 := by
    by_contra hne
    exact Nat.succ_ne_zero _ (hexclusive (Nat.pos_of_ne_zero hne))
  have hfirst : n.awaiting = 0 := by
    by_contra hne
    obtain hone | hnot := hclaim
    · omega
    · rw [hpending (Nat.pos_of_ne_zero hne)] at hnot
      cases hnot
  refine ⟨?_, ?_, fun hacting => ?_, fun _ => rfl, hwriting⟩
  · change n.retreating + n.reading + (n.awaiting + 1) = m.readers
    omega
  · change n.awaiting + 1 + n.acting + n.setting = 1
    omega
  · have hacting : 0 < n.acting + n.setting := hacting
    omega

theorem own (h : Locked (n.add .awaiting) m writing) (hone : m.readers = 1) :
    Locked (n.add .acting) { m with readers := 0, writerPending := false } writing := by
  obtain ⟨hreaders, howner, hexclusive, hpending, hwriting⟩ := h
  have hreaders : n.retreating + n.reading + (n.awaiting + 1) = m.readers := hreaders
  have howner : n.awaiting + 1 + n.acting + n.setting = m.writer.toNat := howner
  refine ⟨?_, ?_, fun _ => ?_, fun hwaits => ?_, hwriting⟩
  · change n.retreating + n.reading + n.awaiting = 0
    omega
  · change n.awaiting + (n.acting + 1) + n.setting = m.writer.toNat
    omega
  · change n.reading = 0
    omega
  · have hwaits : 0 < n.awaiting := hwaits
    omega

theorem acquire (h : Locked n m writing) (hfree : m.busy = false) :
    Locked (n.add .acting) ⟨0, true, false⟩ writing := by
  obtain ⟨hreaders, howner, hexclusive, hpending, hwriting⟩ := h
  obtain ⟨hwriter, hnone⟩ := Bool.or_eq_false_iff.mp hfree
  have hzero : m.readers = 0 := by simpa using hnone
  rw [hwriter, Bool.toNat_false] at howner
  refine ⟨?_, ?_, fun _ => ?_, fun hwaits => ?_, hwriting⟩
  · change n.retreating + n.reading + n.awaiting = 0
    omega
  · change n.awaiting + (n.acting + 1) + n.setting = 1
    omega
  · change n.reading = 0
    omega
  · have hwaits : 0 < n.awaiting := hwaits
    omega

/-- The owner that acts finds no limit that is still to be set. -/
theorem writing_eq_none (h : Locked (n.add .acting) m writing) :
    n.setting = 0 ∧ writing = none := by
  have howner : n.awaiting + (n.acting + 1) + n.setting = m.writer.toNat := h.owner
  have hwriting : n.setting = writing.isSome.toNat := h.writing
  have hle := Bool.toNat_le m.writer
  have hzero : n.setting = 0 := by omega
  rw [hzero] at hwriting
  cases writing with
  | none => exact ⟨hzero, rfl⟩
  | some softLimit => cases hwriting

theorem beginSetting (h : Locked (n.add .acting) m writing) (softLimit : Int) :
    Locked (n.add .setting) m (some softLimit) := by
  obtain ⟨hzero, -⟩ := h.writing_eq_none
  have howner : n.awaiting + (n.acting + 1) + n.setting = m.writer.toNat := h.owner
  refine ⟨h.readers, ?_, fun _ => h.exclusive ?_, h.pending, ?_⟩
  · change n.awaiting + n.acting + (n.setting + 1) = m.writer.toNat
    omega
  · change 0 < n.acting + 1 + n.setting
    omega
  · change n.setting + 1 = 1
    omega

theorem endSetting (h : Locked (n.add .setting) m writing) : Locked (n.add .acting) m none := by
  have howner : n.awaiting + n.acting + (n.setting + 1) = m.writer.toNat := h.owner
  have hle := Bool.toNat_le m.writer
  refine ⟨h.readers, ?_, fun _ => h.exclusive ?_, h.pending, ?_⟩
  · change n.awaiting + (n.acting + 1) + n.setting = m.writer.toNat
    omega
  · change 0 < n.acting + (n.setting + 1)
    omega
  · change n.setting = 0
    omega

theorem unlock (h : Locked (n.add .acting) m writing) :
    Locked n { m with writer := false } writing := by
  have howner : n.awaiting + (n.acting + 1) + n.setting = m.writer.toNat := h.owner
  have hle := Bool.toNat_le m.writer
  refine ⟨h.readers, ?_, fun hacting => ?_, h.pending, h.writing⟩
  · change n.awaiting + n.acting + n.setting = 0
    omega
  · have hacting : 0 < n.acting + n.setting := hacting
    omega

end Locked

namespace State

variable {s t u : State} {i : Nat} {job : Job} {next : Option Job}

theorem locked_proceed (h : Locked (tally s.jobs) s.mutex s.writing) (hi : s.jobs[i]? = some job)
    (hu : s.proceed job = some (u, next)) :
    Locked (tally (next.elim (s.jobs.eraseIdx i) (s.jobs.set i))) u.mutex u.writing := by
  obtain ⟨n, hn, hnext⟩ := tally_advanced hi
  rw [hn] at h
  rw [hnext]
  cases job with
  | lockShared mandatoryDelta =>
    obtain ⟨-, hu⟩ := ite_none_left_eq_some.mp hu
    cases hu
    exact h
  | addReader mandatoryDelta =>
    cases hu
    have hadded := h.addReader
    rw [elim_some, apply_ite Job.role]
    exact hadded
  | retreat mandatoryDelta =>
    cases hu
    exact h.retreat
  | register mandatoryDelta =>
    cases hu
    rw [elim_some]
    split_ifs <;> exact h
  | unlockShared =>
    cases hu
    exact h.unlockShared
  | upgrade work =>
    simp only [State.proceed] at hu
    split_ifs at hu with hclaim
    · cases hu
      exact h.claim hclaim
    · cases hu
      exact h
  | awaitReaders work =>
    obtain ⟨hone, hu⟩ := ite_none_right_eq_some.mp hu
    cases hu
    exact h.own hone
  | reacquire work =>
    cases hu
    exact h.unlockShared
  | lock work =>
    simp only [State.proceed] at hu
    split_ifs at hu with hbusy
    · cases hu
      exact h
    · cases hu
      exact h.acquire (Bool.eq_false_iff.mpr hbusy)
  | loadPending work =>
    cases hu
    rw [elim_some, apply_ite Job.role]
    exact (ite_self _).symm ▸ h
  | setPending work =>
    cases hu
    exact h.setPending
  | locked work =>
    cases hu
    rw [elim_some]
    cases work with
    | enableMandatoryConcurrency | disableMandatoryConcurrency =>
      dsimp only
      split_ifs
      · exact h.beginSetting _
      · exact h
    | setActiveNumWorkers softLimit =>
      dsimp only
      split_ifs <;> exact h.beginSetting _
  | setLimit =>
    obtain ⟨softLimit, -, hu⟩ := map_eq_some_iff.mp hu
    cases hu
    exact h.endSetting
  | unlock =>
    cases hu
    exact h.unlock
  | exchange | apply delta =>
    cases hu
    exact h

/-! ### Mandatory concurrency -/

/-- A step that only acquires or releases the lock. -/
theorem proceed_locking (hjob : job.isLocking = true) (hu : s.proceed job = some (u, next)) :
    (∃ m, u = { s with mutex := m }) ∧ next.elim 0 Job.fetched = 0 ∧
      next.bind Job.work = job.work := by
  cases job with
  | register _ | locked _ | setLimit | exchange | apply _ => cases hjob
  | lockShared mandatoryDelta =>
    obtain ⟨-, hu⟩ := ite_none_left_eq_some.mp hu
    cases hu
    exact ⟨⟨_, rfl⟩, rfl, rfl⟩
  | addReader mandatoryDelta | loadPending work =>
    cases hu
    refine ⟨⟨_, rfl⟩, ?_⟩
    rw [elim_some, bind_some]
    split_ifs <;> exact ⟨rfl, rfl⟩
  | retreat mandatoryDelta | unlockShared | reacquire work | setPending work | unlock =>
    cases hu
    exact ⟨⟨_, rfl⟩, rfl, rfl⟩
  | upgrade work | lock work =>
    simp only [State.proceed] at hu
    split_ifs at hu <;>
    · cases hu
      exact ⟨⟨_, rfl⟩, rfl, rfl⟩
  | awaitReaders work =>
    obtain ⟨-, hu⟩ := ite_none_right_eq_some.mp hu
    cases hu
    exact ⟨⟨_, rfl⟩, rfl, rfl⟩

/-- The owner of the write lock sends nothing before it sets the limit. -/
theorem perform_frame (s : State) (work : Work) :
    (s.perform work).1.sent = s.sent ∧ (s.perform work).1.softLimit = s.softLimit ∧
      (s.perform work).1.totalRequest = s.totalRequest ∧
      (s.perform work).1.pendingDelta = s.pendingDelta ∧ (s.perform work).1.batch = s.batch ∧
      (s.perform work).1.requested = s.requested ∧ (s.perform work).2.fetched = 0 := by
  cases work <;> unfold perform <;> dsimp only <;> split_ifs <;>
    exact ⟨rfl, rfl, rfl, rfl, rfl, rfl, rfl⟩

/-- The limit of the serializer once the owner of the write lock is done. -/
def nextLimit (s : State) : Int := s.writing.getD s.softLimit

/-- Some call is to do the work. -/
def Tries (s : State) (work : Work) : Prop := ∃ job ∈ s.jobs, job.work = some work

/-- A call goes on with its work. -/
theorem tries_advanced {work : Work} (hi : s.jobs[i]? = some job) (ht : t.jobs =
    next.elim (s.jobs.eraseIdx i) (s.jobs.set i))
    (hwork : job.work = some work → next.bind Job.work = some work) (h : s.Tries work) :
    t.Tries work := by
  unfold Tries
  rw [ht]
  cases next with
  | none =>
    obtain ⟨job', hmem, hwork'⟩ := h
    refine ⟨job', mem_eraseIdx_of_ne hi hmem ?_, hwork'⟩
    rintro rfl
    cases hwork hwork'
  | some next => exact exists_mem_set hi hwork h

/-- The limit is the one set last, or one while mandatory concurrency is enabled. Whoever made
the count of mandatory requests disagree with that is still to act. -/
structure Mandatory (s : State) : Prop where
  enabled : s.isMandatoryConcurrencyEnabled → s.limit = 0 ∧ s.nextLimit = 1
  disabled : ¬ s.isMandatoryConcurrencyEnabled → s.nextLimit = s.limit
  enable : s.limit = 0 → 0 < s.numMandatoryRequests → ¬ s.isMandatoryConcurrencyEnabled →
    s.Tries .enableMandatoryConcurrency
  disable : s.isMandatoryConcurrencyEnabled → s.numMandatoryRequests ≤ 0 →
    s.Tries .disableMandatoryConcurrency

theorem mandatory_create (softLimit : Nat) : (create softLimit).Mandatory where
  enabled := nofun
  disabled := fun _ => rfl
  enable := fun _ h => absurd h (lt_irrefl _)
  disable := nofun

/-- A step that is about something else and ends none of the calls that are to act. -/
theorem Mandatory.congr (h : s.Mandatory)
    (henabled : t.isMandatoryConcurrencyEnabled = s.isMandatoryConcurrencyEnabled)
    (hlimit : t.limit = s.limit) (hnext : t.nextLimit = s.nextLimit)
    (hnum : t.numMandatoryRequests = s.numMandatoryRequests)
    (htries : ∀ work, s.Tries work → t.Tries work) : t.Mandatory where
  enabled := by
    rw [henabled, hlimit, hnext]
    exact h.enabled
  disabled := by
    rw [henabled, hlimit, hnext]
    exact h.disabled
  enable := by
    rw [henabled, hlimit, hnum]
    exact fun h₁ h₂ h₃ => htries _ (h.enable h₁ h₂ h₃)
  disable := by
    rw [henabled, hnum]
    exact fun h₁ h₂ => htries _ (h.disable h₁ h₂)

/-- The call that finds the first or the last mandatory request is to act. -/
theorem Mandatory.register (h : s.Mandatory) {mandatoryDelta : MandatoryDelta}
    (hi : s.jobs[i]? = some (.register mandatoryDelta)) :
    Mandatory { (s.registerMandatoryRequest mandatoryDelta).1 with
      jobs := s.jobs.set i (s.registerMandatoryRequest mandatoryDelta).2 } := by
  have hdelta := mandatoryDelta.2
  have hold : ∀ work, s.Tries work → Tries { (s.registerMandatoryRequest mandatoryDelta).1 with
      jobs := s.jobs.set i (s.registerMandatoryRequest mandatoryDelta).2 } work :=
    fun work htries => @tries_advanced s _ i _ (some _) _ hi rfl nofun htries
  have hnew : (s.registerMandatoryRequest mandatoryDelta).2 ∈
      s.jobs.set i (s.registerMandatoryRequest mandatoryDelta).2 :=
    mem_set (List.getElem?_eq_some_iff.mp hi).1 _
  constructor
  case enabled => exact h.enabled
  case disabled => exact h.disabled
  case enable =>
    intro hlimit hnum henabled
    have hnum : 0 < s.numMandatoryRequests + mandatoryDelta.1 := hnum
    by_cases hpos : 0 < s.numMandatoryRequests
    · exact hold _ (h.enable hlimit hpos henabled)
    · have hfirst : mandatoryDelta.1 > 0 ∧ s.numMandatoryRequests = 0 := by omega
      exact ⟨_, hnew, congrArg Job.work (if_pos hfirst)⟩
  case disable =>
    intro henabled hnum
    have hnum : s.numMandatoryRequests + mandatoryDelta.1 ≤ 0 := hnum
    by_cases hpos : s.numMandatoryRequests ≤ 0
    · exact hold _ (h.disable henabled hpos)
    · have hlast : mandatoryDelta.1 < 0 ∧ s.numMandatoryRequests = 1 := by omega
      have hfirst : ¬ (mandatoryDelta.1 > 0 ∧ s.numMandatoryRequests = 0) := by omega
      exact ⟨_, hnew, congrArg Job.work ((if_neg hfirst).trans (if_pos hlast))⟩

/-- The owner of the write lock leaves the limit as it should be. -/
theorem Mandatory.perform (h : s.Mandatory) (hfree : s.writing = none) {work : Work}
    (hi : s.jobs[i]? = some (.locked work)) (hcareful : s.Careful (.proceed i)) :
    Mandatory { (s.perform work).1 with jobs := s.jobs.set i (s.perform work).2 } := by
  have hsoft : s.nextLimit = s.softLimit := by rw [nextLimit, hfree, getD_none]
  have hother : ∀ other, work ≠ other → s.Tries other →
      ∀ next, Tries { s with jobs := s.jobs.set i next } other :=
    fun other hne htries next => @tries_advanced s _ i _ (some next) _ hi rfl
      (fun hwork => absurd (Option.some.inj hwork) hne) htries
  cases work with
  | enableMandatoryConcurrency =>
    unfold State.perform
    dsimp only
    split_ifs with hshould
    · obtain ⟨hnum, hoff, hzero⟩ := hshould
      have hlimit : s.limit = 0 := (h.disabled hoff).symm.trans (hsoft.trans hzero)
      exact ⟨fun _ => ⟨hlimit, rfl⟩, fun h => absurd rfl h, fun _ _ h => absurd rfl h,
        fun _ hle => absurd hle (not_le.mpr hnum)⟩
    · refine ⟨h.enabled, h.disabled, fun hlimit hnum hoff => ?_, fun hon hle =>
        hother .disableMandatoryConcurrency nofun (h.disable hon hle) _⟩
      exact absurd ⟨hnum, hoff, hsoft.symm.trans ((h.disabled hoff).trans hlimit)⟩ hshould
  | disableMandatoryConcurrency =>
    unfold State.perform
    dsimp only
    split_ifs with hshould
    · obtain ⟨hnum, hon, -⟩ := hshould
      exact ⟨nofun, fun _ => (h.enabled hon).1.symm, fun _ hpos => absurd hpos (not_lt.mpr hnum),
        nofun⟩
    · refine ⟨h.enabled, h.disabled, fun hlimit hnum hoff =>
        hother .enableMandatoryConcurrency nofun (h.enable hlimit hnum hoff) _,
        fun hon hle => ?_⟩
      refine absurd ⟨hle, hon, fun hzero => ?_⟩ hshould
      have := (h.enabled hon).2
      omega
  | setActiveNumWorkers softLimit =>
    unfold State.perform
    dsimp only
    split_ifs with hne hnum
    · refine ⟨nofun, fun _ => rfl, fun hlimit => ?_, nofun⟩
      exact absurd (Int.natCast_eq_zero.mp hlimit) hne
    · obtain rfl := not_not.mp hne
      exact ⟨fun _ => ⟨rfl, rfl⟩, fun h => absurd rfl h, fun _ _ h => absurd rfl h,
        fun _ hle => absurd hle (not_le.mpr hnum)⟩
    · obtain rfl := not_not.mp hne
      have hoff : ¬ s.isMandatoryConcurrencyEnabled := fun hon => hnum (hcareful hi hon)
      exact ⟨fun hon => absurd hon hoff, fun _ => rfl, fun _ hpos => absurd hpos hnum,
        fun hon => absurd hon hoff⟩

/-! ### Any interleaving -/

/-- The invariants. -/
structure Sound (s : State) : Prop where
  counted : s.Counted
  locked : Locked (tally s.jobs) s.mutex s.writing
  mandatory : s.Mandatory

theorem sound_create (softLimit : Nat) : (create softLimit).Sound where
  counted := counted_create softLimit
  locked := ⟨rfl, rfl, nofun, nofun, rfl⟩
  mandatory := mandatory_create softLimit

/-- The step of a call that fetches nothing leaves the changes where they are. -/
theorem Counted.advanced (h : s.Counted) (hi : s.jobs[i]? = some job) (hexchange : job ≠ .exchange)
    (hjob : job.fetched = 0) (hnext : next.elim 0 Job.fetched = 0) :
    Counted { s with jobs := next.elim (s.jobs.eraseIdx i) (s.jobs.set i) } := by
  cases next with
  | none =>
    refine h.congr rfl rfl rfl rfl rfl rfl ?_ fun hmem =>
      mem_eraseIdx_of_ne hi hmem hexchange.symm
    rw [elim_none, sum_map_eraseIdx _ hi, hjob, sub_zero]
  | some next =>
    refine h.congr rfl rfl rfl rfl rfl rfl ?_ fun hmem =>
      mem_set_of_ne hi hmem hexchange.symm next
    rw [elim_some, sum_map_set _ hi, hjob, sub_zero]
    exact (congrArg _ hnext).trans (add_zero _)

theorem Sound.proceed (h : s.Sound) (hcareful : s.Careful (.proceed i))
    (hi : s.jobs[i]? = some job) (hu : s.proceed job = some (u, next)) :
    Sound { u with jobs := next.elim (s.jobs.eraseIdx i) (s.jobs.set i) } := by
  have hlocked := locked_proceed h.locked hi hu
  suffices hrest : Counted { u with jobs := next.elim (s.jobs.eraseIdx i) (s.jobs.set i) } ∧
      Mandatory { u with jobs := next.elim (s.jobs.eraseIdx i) (s.jobs.set i) } from
    ⟨hrest.1, hlocked, hrest.2⟩
  have htries : ∀ work, (job.work = some work → next.bind Job.work = some work) → s.Tries work →
      Tries { u with jobs := next.elim (s.jobs.eraseIdx i) (s.jobs.set i) } work :=
    fun work hwork => tries_advanced hi rfl hwork
  by_cases hlocking : job.isLocking = true
  · obtain ⟨⟨m, rfl⟩, hfetched, hwork⟩ := proceed_locking hlocking hu
    constructor
    · refine (h.counted.advanced hi ?_ ?_ hfetched).congr rfl rfl rfl rfl rfl rfl rfl id
      · rintro rfl
        cases hlocking
      · cases job <;> first | rfl | cases hlocking
    · exact h.mandatory.congr rfl rfl rfl rfl fun work => htries work hwork.trans
  cases job with
  | register mandatoryDelta =>
    cases hu
    refine ⟨(h.counted.advanced hi nofun rfl ?_).congr rfl rfl rfl rfl rfl rfl rfl id,
      h.mandatory.register hi⟩
    rw [elim_some]
    split_ifs <;> rfl
  | locked work =>
    obtain ⟨n, hn, -⟩ := tally_advanced hi
    have hbefore := h.locked
    rw [hn] at hbefore
    obtain ⟨hsent, hsoft, htotal, hword, hbatch, hrequested, hfetched⟩ := perform_frame s work
    cases hu
    refine ⟨?_, h.mandatory.perform hbefore.writing_eq_none.2 hi hcareful⟩
    exact (@Counted.advanced s i _ (some _) h.counted hi nofun rfl hfetched).congr hsent hsoft
      htotal hword hbatch hrequested rfl id
  | setLimit =>
    obtain ⟨softLimit, hwriting, hu⟩ := map_eq_some_iff.mp hu
    cases hu
    refine ⟨(@Counted.advanced s i _ (some .unlock) h.counted hi nofun rfl rfl).setSoftLimit
      softLimit, h.mandatory.congr rfl rfl ?_ rfl fun work => htries work nofun⟩
    change softLimit = s.writing.getD s.softLimit
    rw [hwriting, getD_some]
  | exchange =>
    cases hu
    exact ⟨h.counted.exchange hi, h.mandatory.congr rfl rfl rfl rfl fun work => htries work nofun⟩
  | apply delta =>
    cases hu
    exact ⟨h.counted.apply hi, h.mandatory.congr rfl rfl rfl rfl fun work => htries work nofun⟩
  | _ => exact absurd rfl hlocking

theorem Sound.step (h : s.Sound) {event : Event} (hcareful : s.Careful event)
    (ht : s.step event = some t) : t.Sound := by
  -- a call that starts has neither the lock nor anything to act on
  have hadd : ∀ job : Job, job.role = .outside →
      Locked (tally (s.jobs ++ [job])) s.mutex s.writing := by
    intro job hjob
    rw [tally_split, append_nil, hjob]
    exact h.locked
  have htries : ∀ (job : Job) (work : Work), (∃ job' ∈ s.jobs, job'.work = some work) →
      ∃ job' ∈ s.jobs ++ [job], job'.work = some work :=
    fun job work ⟨job', hmem, hwork⟩ => ⟨job', mem_append_left _ hmem, hwork⟩
  cases event with
  | update delta =>
    obtain ⟨⟨hlength, hlower, hupper⟩, ht⟩ := ite_none_right_eq_some.mp ht
    cases ht
    refine ⟨h.counted.update hlength hlower hupper, ?_, ?_⟩
    · unfold State.update
      dsimp only
      split_ifs
      · exact hadd .exchange rfl
      · exact h.locked
    · refine h.mandatory.congr rfl rfl rfl rfl fun work hwork => ?_
      unfold State.update Tries
      dsimp only
      split_ifs
      · exact htries .exchange work hwork
      · exact hwork
  | registerMandatoryRequest mandatoryDelta =>
    cases ht
    refine ⟨h.counted.congr rfl rfl rfl rfl rfl rfl ?_ fun hmem => mem_append_left _ hmem,
      hadd _ rfl, h.mandatory.congr rfl rfl rfl rfl (htries _)⟩
    simp [Job.fetched]
  | setActiveNumWorkers softLimit =>
    cases ht
    refine ⟨h.counted.congr rfl rfl rfl rfl rfl rfl ?_ fun hmem => mem_append_left _ hmem,
      hadd _ rfl, h.mandatory.congr rfl rfl rfl rfl (htries _)⟩
    simp [Job.fetched]
  | proceed i =>
    obtain ⟨job, hi, ht⟩ := bind_eq_some_iff.mp ht
    obtain ⟨⟨u, next⟩, hu, rfl⟩ := map_eq_some_iff.mp ht
    exact h.proceed hcareful hi hu

theorem sound_of_run {softLimit : Nat} (run : (create softLimit).CarefulRun s) : s.Sound :=
  Transition.run_preserves (fun _ _ h ⟨_, hcareful, hstep⟩ => h.step hcareful hstep) run
    (sound_create softLimit)

end State

/-- If a limit of zero is never set while mandatory concurrency is enabled without a mandatory
request, then whenever no call is under way the dispatcher has been sent the sum of all
changes, or the limit with regard to mandatory requests if that is lower. -/
theorem serializer_sends_limited_request (softLimit : Nat) {s : State}
    (run : (State.create softLimit).CarefulRun s) (hquiet : s.jobs = []) :
    s.sent = min s.effectiveLimit s.requested := by
  obtain ⟨hcounted, hlocked, hmandatory⟩ := State.sound_of_run run
  have hbatch : s.batch = [] := by
    by_contra hne
    have := hcounted.fetch hne
    rw [hquiet] at this
    exact not_mem_nil this
  have hrequested := hcounted.requested
  rw [hquiet, hbatch] at hrequested
  have htotal : s.totalRequest = s.requested := by
    rw [← hrequested]
    simp
  have hnobody : ∀ work, ¬ s.Tries work := by
    rintro work ⟨job, hmem, -⟩
    rw [hquiet] at hmem
    exact not_mem_nil hmem
  have hnext : s.nextLimit = s.softLimit := by
    have hwriting := hlocked.writing
    rw [hquiet] at hwriting
    unfold State.nextLimit
    cases hw : s.writing with
    | none => rfl
    | some softLimit => simp [hw, tally] at hwriting
  have hsoft : s.softLimit = s.effectiveLimit := by
    unfold State.effectiveLimit
    by_cases hon : s.isMandatoryConcurrencyEnabled
    · obtain ⟨hlimit, hone⟩ := hmandatory.enabled hon
      have hpos : 0 < s.numMandatoryRequests := by
        by_contra hle
        exact hnobody _ (hmandatory.disable hon (not_lt.mp hle))
      rw [if_pos ⟨hlimit, hpos⟩, ← hnext, hone]
    · rw [if_neg, ← hnext, hmandatory.disabled hon]
      rintro ⟨hlimit, hpos⟩
      exact hnobody _ (hmandatory.enable hlimit hpos hon)
  rw [hcounted.sent, hsoft, htotal]

/-- A thread is asked for while the limit is zero, and a mandatory request lets it come. The
call upgrades its lock, being the only reader. -/
def requestOne : List Event :=
  [.update 1, .proceed 0, .proceed 0, .registerMandatoryRequest ⟨1, .inl rfl⟩] ++
    replicate 8 (.proceed 0)

theorem serializer_sends_limited_request_one : ∃ s : State,
    (State.create 0).CarefulRun s ∧ s.jobs = [] ∧ s.requested = 1 ∧ s.effectiveLimit = 1 ∧
      s.sent = 1 := by
  have hevents : (requestOne.foldlM
      (fun (s : State) event => if s.Careful event then s.step event else none)
        (State.create 0)).map (fun s => (s.jobs, s.requested, s.effectiveLimit)) =
        some ([], 1, 1) := by
    decide +kernel
  obtain ⟨s, hs, hread⟩ := map_eq_some_iff.mp hevents
  simp only [Prod.mk.injEq] at hread
  obtain ⟨hquiet, hrequested, hlimit⟩ := hread
  have run : (State.create 0).CarefulRun s := by
    refine ReflTransGen.mono ?_ _ _ (Transition.run_of_foldlM hs)
    rintro s t ⟨event, hstep⟩
    exact ⟨event, ite_none_right_eq_some.mp hstep⟩
  refine ⟨s, run, hquiet, hrequested, hlimit, ?_⟩
  rw [serializer_sends_limited_request 0 run hquiet, hrequested, hlimit]
  rfl

/-- A second mandatory request is made. Then both are taken back: when a limit of zero is to
be set, the first call has taken back one and still has its read lock, and the second call has
taken back the other and loses its lock. The limit is set before it can act. -/
def setZeroMeanwhile : List Event :=
  [.registerMandatoryRequest ⟨1, .inl rfl⟩, .proceed 0, .proceed 0, .proceed 0, .proceed 0,
    .registerMandatoryRequest ⟨-1, .inr rfl⟩, .proceed 0, .proceed 0, .proceed 0,
    .registerMandatoryRequest ⟨-1, .inr rfl⟩, .proceed 1, .proceed 1, .proceed 1,
    .setActiveNumWorkers 0, .proceed 2, .proceed 2, .proceed 2, .proceed 1, .proceed 1,
    .proceed 0, .proceed 1, .proceed 1, .proceed 1, .proceed 1, .proceed 0, .proceed 0, .proceed 0]

/-- Another mandatory request is made when all these calls are over. -/
def requestAgain : List Event :=
  .registerMandatoryRequest ⟨1, .inl rfl⟩ :: replicate 7 (.proceed 0)

/-- Mandatory concurrency is left enabled with a limit of zero, so that no thread is asked
for although there is a mandatory request. -/
theorem mandatory_request_not_sent : ∃ s : State,
    (State.create 0).Run s ∧ s.jobs = [] ∧ s.limit = 0 ∧ s.numMandatoryRequests = 1 ∧
      s.requested = 1 ∧ s.sent = 0 := by
  have hevents : ((requestOne ++ setZeroMeanwhile ++ requestAgain).foldlM State.step
      (State.create 0)).map
      (fun s => (s.jobs, [s.limit, s.numMandatoryRequests, s.requested, s.sent])) =
        some ([], [0, 1, 1, 0]) := by
    decide +kernel
  obtain ⟨s, hs, hread⟩ := map_eq_some_iff.mp hevents
  simp only [Prod.mk.injEq, List.cons.injEq, and_true] at hread
  obtain ⟨hquiet, hlimit, hnum, hrequested, hsent⟩ := hread
  exact ⟨s, Transition.run_of_foldlM hs, hquiet, hlimit, hnum, hrequested, hsent⟩

end OneTbb.Scheduler.ThreadRequests
