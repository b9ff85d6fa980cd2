import OneTbb.Tcm.Stakeholders

/-!
# Thread composability manager: the balance of resources

What is available and what the permits hold add up to the resources of the platform,
as long as nothing has wrapped; modulo the word size they always do. While resources
move, some are in transit; the balance counts them in.
-/

namespace OneTbb.Tcm

open State List

/-- What all permits hold. -/
def State.held (st : State) : Nat :=
  Ledger.total (fun p : Permit => p.concurrency.sum) st.rep st.allocated

/-- The resources of the platform are available, held or in transit. -/
structure Balanced (P : Platform) (transit : Int) (st : State) : Prop where
  available_lt : st.availableConcurrency < 4294967296
  modulo : ((st.availableConcurrency : Int) + st.held + transit) % 4294967296 = P.platformResources
  exact : st.wrapped = false →
    (st.availableConcurrency : Int) + st.held + transit = P.platformResources

/-! ## What moving handles leaves alone -/

namespace State

variable (st : State) (h : Handle) (s : PermitState)

@[simp] theorem dropLazy_availableConcurrency :
    (st.dropLazy h).availableConcurrency = st.availableConcurrency := by
  unfold dropLazy
  split <;> rfl

@[simp] theorem dropLazy_wrapped : (st.dropLazy h).wrapped = st.wrapped := by
  unfold dropLazy
  split <;> rfl

@[simp] theorem removePermit_availableConcurrency :
    (st.removePermit h s).availableConcurrency = st.availableConcurrency := by
  cases s <;> simp only [removePermit, dropLazy_availableConcurrency]
  split <;> simp

@[simp] theorem removePermit_wrapped : (st.removePermit h s).wrapped = st.wrapped := by
  cases s <;> simp only [removePermit, dropLazy_wrapped]
  split <;> simp

@[simp] theorem addPermit_availableConcurrency :
    (st.addPermit h s).availableConcurrency = st.availableConcurrency := by
  cases s <;> simp only [addPermit]
  split <;> rfl

@[simp] theorem addPermit_wrapped : (st.addPermit h s).wrapped = st.wrapped := by
  cases s <;> simp only [addPermit]
  split <;> rfl

end State

/-- The delta of `update` is what the permit holds less afterwards. -/
theorem storeConcurrencies_delta (old new : List Nat) :
    (storeConcurrencies old new).2 = (old.sum : Int) - (storeConcurrencies old new).1.sum := by
  induction old generalizing new with
  | nil => cases new <;> rfl
  | cons o old ih =>
    cases new with
    | nil => exact (Int.sub_self _).symm
    | cons n new =>
      simp only [storeConcurrencies, sum_cons, ih new]
      omega

namespace Balanced

variable {P : Platform} {transit : Int} {st : State} {h : Handle}

section

variable (hb : Balanced P transit st)
include hb

theorem congr {st' : State}
    (havail : st'.availableConcurrency = st.availableConcurrency) (hrep : st'.rep = st.rep)
    (hal : st'.allocated = st.allocated) (hwrapped : st'.wrapped = false → st.wrapped = false) :
    Balanced P transit st' := by
  have hheld : st'.held = st.held := by
    unfold State.held
    rw [hrep, hal]
  constructor
  case available_lt =>
    rw [havail]
    exact hb.available_lt
  case modulo =>
    rw [havail, hheld]
    exact hb.modulo
  case exact =>
    intro hw
    rw [havail, hheld]
    exact hb.exact (hwrapped hw)

theorem removePermit (s : PermitState) :
    Balanced P transit (st.removePermit h s) :=
  hb.congr (by simp) (by simp) (by simp) (by simp)

theorem addPermit (s : PermitState) :
    Balanced P transit (st.addPermit h s) :=
  hb.congr (by simp) (by simp) (by simp) (by simp)

theorem noteTcmStateChange : Balanced P transit st.noteTcmStateChange :=
  hb.congr rfl rfl rfl id

theorem of_eq {transit' : Int} (heq : transit' = transit) :
    Balanced P transit' st := heq ▸ hb

/-- Writing a permit puts what it holds less into transit. -/
theorem setPermit (hal : h ∈ st.allocated) (hn : st.allocated.Nodup) (p : Permit) :
    Balanced P (transit + ((st.rep h).concurrency.sum - p.concurrency.sum))
      (st.setPermit h p) := by
  have hheld : (st.setPermit h p).held + (st.rep h).concurrency.sum
      = st.held + p.concurrency.sum := Ledger.total_update p hal hn
  have hmod := hb.modulo
  constructor
  case available_lt => exact hb.available_lt
  case modulo =>
    change ((st.availableConcurrency : Int) + (st.setPermit h p).held + _) % _ = _
    rw [← hmod]
    congr 1
    omega
  case exact =>
    intro hw
    have hexact := hb.exact hw
    change (st.availableConcurrency : Int) + (st.setPermit h p).held + _ = _
    omega

theorem setPermit_same (hal : h ∈ st.allocated)
    (hn : st.allocated.Nodup) {p : Permit} (hsum : p.concurrency.sum = (st.rep h).concurrency.sum) :
    Balanced P transit (st.setPermit h p) :=
  (hb.setPermit hal hn p).of_eq (by omega)

theorem addAvailable (delta : Int) :
    Balanced P (transit - delta) (st.addAvailable delta) := by
  have hmod := hb.modulo
  have hheld : (st.addAvailable delta).held = st.held := rfl
  constructor
  case available_lt => exact Word.ofInt_lt _
  case modulo =>
    change ((Word.ofInt (st.availableConcurrency + delta) : Int) + st.held + _) % _ = _
    rw [← hmod]
    unfold Word.ofInt
    omega
  case exact =>
    intro hw
    change ((st.wrapped || _) = false) at hw
    obtain ⟨hwrapped, hrange⟩ := Bool.or_eq_false_iff.mp hw
    have hrange := of_decide_eq_false hrange
    have hexact := hb.exact hwrapped
    change (Word.ofInt (st.availableConcurrency + delta) : Int) + st.held + _ = _
    rw [Word.ofInt_of_lt (by omega) (by omega)]
    omega

end

/-- The grant of a permit in transit becomes available. -/
theorem addAvailable_grant {xs : List Nat} (hb : Balanced P xs.sum st) :
    Balanced P 0 (st.addAvailable (Word.sum xs)) := by
  have hadd := hb.addAvailable (Word.sum xs)
  have hlt := P.platformResources_lt
  constructor
  case available_lt => exact hadd.available_lt
  case modulo =>
    have hmod := hadd.modulo
    rw [Word.sum_eq] at hmod ⊢
    omega
  case exact =>
    intro hw
    have hwrapped : st.wrapped = false := (Bool.or_eq_false_iff.mp hw).1
    have hexact := hb.exact hwrapped
    have hsum : Word.sum xs = xs.sum := Word.sum_of_lt (by omega)
    have := hadd.exact hw
    rw [hsum] at this ⊢
    omega

end Balanced

/-! ## Changes -/

section

variable {P : Platform} {initiator : Option Handle} {first : Bool}

theorem Balanced.applyChange {acc : State × Int} (hb : Balanced P acc.2 acc.1) {c : PermitChange}
    (hal : c.handle ∈ acc.1.allocated) (hn : acc.1.allocated.Nodup) :
    Balanced P (State.applyChange initiator first acc c).2
      (State.applyChange initiator first acc c).1 := by
  have hset := hb.setPermit hal hn ((acc.1.rep c.handle).updated c)
  have hdelta : (State.applyChange initiator first acc c).2 = acc.2 +
      ((acc.1.rep c.handle).concurrency.sum -
        ((acc.1.rep c.handle).updated c).concurrency.sum) := by
    change acc.2 + _ = acc.2 + _
    rw [storeConcurrencies_delta]
    rfl
  rw [hdelta]
  apply hset.congr
  case havail =>
    simp only [State.applyChange, addPermit_availableConcurrency, State.setPermit]
    split <;> simp
  case hrep =>
    rw [applyChange_rep]
    rfl
  case hal => rw [applyChange_allocated, setPermit_allocated]
  case hwrapped =>
    intro hw
    simp only [State.applyChange, addPermit_wrapped, State.setPermit,
      Bool.or_eq_false_iff] at hw
    have := hw.1
    split at this
    · rwa [removePermit_wrapped] at this
    · exact this

theorem foldl_applyChange_allocated (cs : List PermitChange) (acc : State × Int) :
    (cs.foldl (State.applyChange initiator first) acc).1.allocated = acc.1.allocated := by
  induction cs generalizing acc with
  | nil => rfl
  | cons c rest ih => rw [foldl_cons, ih, applyChange_allocated]

theorem Balanced.foldl_applyChange {cs : List PermitChange} {acc : State × Int}
    (hb : Balanced P acc.2 acc.1) (hal : ∀ c ∈ cs, c.handle ∈ acc.1.allocated)
    (hn : acc.1.allocated.Nodup) :
    Balanced P (cs.foldl (State.applyChange initiator first) acc).2
      (cs.foldl (State.applyChange initiator first) acc).1 := by
  induction cs generalizing acc with
  | nil => exact hb
  | cons c rest ih =>
    apply ih (hb.applyChange (hal c mem_cons_self) hn)
    · intro d hd
      rw [applyChange_allocated]
      exact hal d (mem_cons_of_mem c hd)
    · rw [applyChange_allocated]
      exact hn

theorem Balanced.apply {st : State} (hb : Balanced P 0 st) {cs : List PermitChange}
    (hal : ∀ c ∈ cs, c.handle ∈ st.allocated) (hn : st.allocated.Nodup) :
    Balanced P 0 (st.apply cs initiator first) := by
  have hfold : Balanced P (cs.foldl (State.applyChange initiator first) (st, 0)).2
      (cs.foldl (State.applyChange initiator first) (st, 0)).1 :=
    Balanced.foldl_applyChange hb hal hn
  have hadd := hfold.addAvailable (cs.foldl (State.applyChange initiator first) (st, 0)).2
  rw [Int.sub_self] at hadd
  exact hadd.noteTcmStateChange

end

end OneTbb.Tcm
