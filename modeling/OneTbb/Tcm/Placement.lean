import OneTbb.Tcm.Operations

/-!
# Thread composability manager: where permits are

Each permit is in the container its state prescribes, and permits without a claim
on resources hold none. While an operation works on a permit, that permit is in no
container; the invariant therefore names the permits that are taken out.
-/

namespace OneTbb.Tcm

open State Function List Permit

/-- The containers of the manager. -/
inductive Container where
  | pending
  | idle
  | active
  deriving DecidableEq

/-- The container the state of a permit prescribes. -/
def Permit.container (p : Permit) : Option Container :=
  match p.state with
  | .inactive => none
  | .pending => some .pending
  | .idle => some .idle
  | .active => if p.participatesInSubscriptionCompute then some .active else none

theorem Permit.idle_of_container {p : Permit} (hp : p.container = some .idle) : p.state = .idle := by
  unfold container at hp
  cases hs : p.state <;> simp_all

theorem Permit.active_of_container {p : Permit} (hp : p.container = some .active) :
    p.state = .active := by
  unfold container at hp
  cases hs : p.state <;> simp_all

/-- The handles in a container. -/
def State.members (st : State) : Container → List Handle
  | .pending => st.pendingPermits
  | .idle => st.idlePermits
  | .active => st.activePermits

/-- A permit with one entry that waits or was given back holds nothing. -/
def Permit.HoldsOnlyOwned (p : Permit) : Prop :=
  p.concurrency.length ≤ 1 → p.state = .pending ∨ p.state = .inactive →
    ∀ n ∈ p.concurrency, n = 0

/-- Every permit but those taken out is where its state says. -/
structure Placed (out : Set Handle) (st : State) : Prop where
  allocated_nodup : st.allocated.Nodup
  nodup : ∀ c, (st.members c).Nodup
  mem_iff : ∀ c h, h ∈ st.members c ↔
    h ∈ st.allocated ∧ h ∉ out ∧ (st.rep h).container = some c
  lazy_inactive : ∀ h, st.lazyInactivePermit = some h →
    h ∈ st.allocated ∧ h ∉ out ∧ (st.rep h).state = .inactive
  holdsOnlyOwned : ∀ h ∈ st.allocated, h ∉ out → st.lazyInactivePermit ≠ some h →
    (st.rep h).HoldsOnlyOwned

/-! ## What the primitives leave alone -/

namespace State

variable (st : State) (h : Handle)

@[simp] theorem setPermit_rep_self (p : Permit) : (st.setPermit h p).rep h = p :=
  update_self ..

theorem setPermit_rep_of_ne {p : Permit} {k : Handle} (hne : k ≠ h) :
    (st.setPermit h p).rep k = st.rep k := update_of_ne hne ..

@[simp] theorem setPermit_allocated (p : Permit) : (st.setPermit h p).allocated = st.allocated := rfl

@[simp] theorem setPermit_members (p : Permit) (c : Container) :
    (st.setPermit h p).members c = st.members c := by
  cases c <;> rfl

@[simp] theorem setPermit_lazyInactivePermit (p : Permit) :
    (st.setPermit h p).lazyInactivePermit = st.lazyInactivePermit := rfl

@[simp] theorem dropLazy_rep : (st.dropLazy h).rep = st.rep := by
  unfold dropLazy
  split <;> rfl

@[simp] theorem dropLazy_allocated : (st.dropLazy h).allocated = st.allocated := by
  unfold dropLazy
  split <;> rfl

@[simp] theorem dropLazy_members (c : Container) : (st.dropLazy h).members c = st.members c := by
  unfold dropLazy
  split <;> cases c <;> rfl

theorem dropLazy_lazyInactivePermit :
    (st.dropLazy h).lazyInactivePermit =
      if st.lazyInactivePermit = some h then none else st.lazyInactivePermit := by
  unfold dropLazy
  split <;> rfl

@[simp] theorem removePermit_rep (s : PermitState) : (st.removePermit h s).rep = st.rep := by
  cases s <;> simp only [removePermit, dropLazy_rep]
  split <;> simp

@[simp] theorem removePermit_allocated (s : PermitState) :
    (st.removePermit h s).allocated = st.allocated := by
  cases s <;> simp only [removePermit, dropLazy_allocated]
  split <;> simp

/-- Removal takes the handle out of the container it is in. -/
theorem removePermit_members (c : Container) :
    (st.removePermit h (st.rep h).state).members c =
      if (st.rep h).container = some c then (st.members c).erase h else st.members c := by
  cases hs : (st.rep h).state with
  | inactive => simp [removePermit, container, hs]
  | pending | idle => cases c <;> simp [removePermit, container, hs, members]
  | active =>
    cases hp : (st.rep h).participatesInSubscriptionCompute with
    | false => simp [removePermit, container, hs, hp]
    | true => cases c <;> simp [removePermit, container, hs, hp, members]

@[simp] theorem addPermit_rep (s : PermitState) : (st.addPermit h s).rep = st.rep := by
  cases s <;> simp only [addPermit]
  split <;> rfl

@[simp] theorem addPermit_allocated (s : PermitState) :
    (st.addPermit h s).allocated = st.allocated := by
  cases s <;> simp only [addPermit]
  split <;> rfl

@[simp] theorem addPermit_lazyInactivePermit (s : PermitState) :
    (st.addPermit h s).lazyInactivePermit = st.lazyInactivePermit := by
  cases s <;> simp only [addPermit]
  split <;> rfl

theorem insertInto_perm {less : Handle → Handle → Bool} {set : List Handle} (hn : h ∉ set) :
    (insertInto less h set).Perm (h :: set) := by
  unfold insertInto
  rw [if_neg hn]
  exact Selection.insertUpper_perm h set

theorem addPermit_members (c : Container) (hn : h ∉ st.members c) :
    ((st.addPermit h (st.rep h).state).members c).Perm
      (if (st.rep h).container = some c then h :: st.members c else st.members c) := by
  cases hs : (st.rep h).state with
  | inactive => simp [addPermit, container, hs]
  | pending | idle =>
    cases c <;> simp [addPermit, container, hs, members]
    exact insertInto_perm h hn
  | active =>
    cases hp : (st.rep h).participatesInSubscriptionCompute with
    | false => simp [addPermit, container, hs, hp]
    | true =>
      cases c <;> simp [addPermit, container, hs, hp, members]
      exact insertInto_perm h hn

theorem removePermit_lazyInactivePermit (s : PermitState) :
    (st.removePermit h s).lazyInactivePermit = st.lazyInactivePermit ∨
      st.lazyInactivePermit = some h ∧ (st.removePermit h s).lazyInactivePermit = none := by
  have hdrop : (st.dropLazy h).lazyInactivePermit = st.lazyInactivePermit ∨
      st.lazyInactivePermit = some h ∧ (st.dropLazy h).lazyInactivePermit = none := by
    rw [dropLazy_lazyInactivePermit]
    by_cases hl : st.lazyInactivePermit = some h
    · exact .inr ⟨hl, if_pos hl⟩
    · exact .inl (if_neg hl)
  cases s with
  | inactive => exact hdrop
  | pending | idle => exact .inl rfl
  | active =>
    simp only [removePermit]
    split
    · exact .inl rfl
    · exact hdrop

end State

/-! ## Taking permits out and putting them back -/

namespace Placed

variable {out : Set Handle} {st : State} {h : Handle}

section

variable (hp : Placed out st)
include hp

theorem notMem_of_out (hout : h ∈ out) (c : Container) :
    h ∉ st.members c :=
  fun hmem => ((hp.mem_iff c h).mp hmem).2.1 hout

theorem lazy_ne_of_out (hout : h ∈ out) : st.lazyInactivePermit ≠ some h :=
  fun e => (hp.lazy_inactive h e).2.1 hout

theorem congr {st' : State} (hrep : st'.rep = st.rep)
    (hal : st'.allocated = st.allocated) (hmem : ∀ c, st'.members c = st.members c)
    (hlazy : st'.lazyInactivePermit = st.lazyInactivePermit) : Placed out st' where
  allocated_nodup := by rw [hal]; exact hp.allocated_nodup
  nodup := fun c => by rw [hmem c]; exact hp.nodup c
  mem_iff := fun c k => by rw [hmem c, hal, hrep]; exact hp.mem_iff c k
  lazy_inactive := fun k => by rw [hlazy, hal, hrep]; exact hp.lazy_inactive k
  holdsOnlyOwned := fun k => by rw [hlazy, hal, hrep]; exact hp.holdsOnlyOwned k

theorem addAvailable (delta : Int) : Placed out (st.addAvailable delta) :=
  hp.congr rfl rfl (fun _ => rfl) rfl

theorem noteTcmStateChange : Placed out st.noteTcmStateChange :=
  hp.congr rfl rfl (fun _ => rfl) rfl

theorem remove : Placed (insert h out) (st.removePermit h (st.rep h).state) where
  allocated_nodup := by
    rw [removePermit_allocated]
    exact hp.allocated_nodup
  nodup := fun c => by
    rw [removePermit_members]
    split
    · exact (hp.nodup c).erase h
    · exact hp.nodup c
  mem_iff := fun c k => by
    rw [removePermit_members, removePermit_rep, removePermit_allocated]
    by_cases hk : k = h
    · subst hk
      constructor
      · intro hmem
        split at hmem
        · exact absurd hmem (hp.nodup c).not_mem_erase
        · rename_i hc
          exact absurd ((hp.mem_iff c k).mp hmem).2.2 hc
      · rintro ⟨_, hnot, _⟩
        exact absurd (Set.mem_insert k out) hnot
    · have hmem : (k ∈ if (st.rep h).container = some c then (st.members c).erase h
          else st.members c) ↔ k ∈ st.members c := by
        split
        · exact mem_erase_of_ne hk
        · exact Iff.rfl
      rw [hmem, hp.mem_iff c k, Set.mem_insert_iff]
      tauto
  lazy_inactive := fun k hk => by
    rw [removePermit_rep, removePermit_allocated]
    obtain heq | ⟨_, hnone⟩ := st.removePermit_lazyInactivePermit h (st.rep h).state
    · rw [heq] at hk
      obtain ⟨hal, hout, hst⟩ := hp.lazy_inactive k hk
      have hne : k ≠ h := by
        rintro rfl
        rw [hst] at heq
        rw [State.removePermit, dropLazy_lazyInactivePermit, if_pos hk, hk] at heq
        cases heq
      exact ⟨hal, by rw [Set.mem_insert_iff]; tauto, hst⟩
    · rw [hnone] at hk
      cases hk
  holdsOnlyOwned := fun k hal hout hlazy => by
    rw [removePermit_allocated] at hal
    rw [Set.mem_insert_iff, not_or] at hout
    rw [removePermit_rep]
    apply hp.holdsOnlyOwned k hal hout.2
    obtain heq | ⟨hsome, _⟩ := st.removePermit_lazyInactivePermit h (st.rep h).state
    · rw [← heq]
      exact hlazy
    · rw [hsome]
      exact fun e => hout.1 (Option.some.inj e).symm

theorem write (hout : h ∈ out) (p : Permit) : Placed out (st.setPermit h p) where
  allocated_nodup := hp.allocated_nodup
  nodup := fun c => by rw [setPermit_members]; exact hp.nodup c
  mem_iff := fun c k => by
    rw [setPermit_members, hp.mem_iff c k, setPermit_allocated]
    by_cases hk : k = h
    · subst hk
      tauto
    · rw [st.setPermit_rep_of_ne h hk]
  lazy_inactive := fun k hk => by
    obtain ⟨hal, hkout, hst⟩ := hp.lazy_inactive k hk
    have hne : k ≠ h := fun e => hkout (e ▸ hout)
    rw [st.setPermit_rep_of_ne h hne]
    exact ⟨hal, hkout, hst⟩
  holdsOnlyOwned := fun k hal hkout hlazy => by
    have hne : k ≠ h := fun e => hkout (e ▸ hout)
    rw [st.setPermit_rep_of_ne h hne]
    exact hp.holdsOnlyOwned k hal hkout hlazy

theorem rewrite {p : Permit} (hstate : p.state = (st.rep h).state)
    (hcontainer : p.container = (st.rep h).container)
    (hconc : p.HoldsOnlyOwned ↔ (st.rep h).HoldsOnlyOwned) : Placed out (st.setPermit h p) := by
  have hrep : ∀ k, ((st.setPermit h p).rep k).state = (st.rep k).state ∧
      ((st.setPermit h p).rep k).container = (st.rep k).container ∧
      (((st.setPermit h p).rep k).HoldsOnlyOwned ↔ (st.rep k).HoldsOnlyOwned) := by
    intro k
    by_cases hk : k = h
    · subst hk
      rw [setPermit_rep_self]
      exact ⟨hstate, hcontainer, hconc⟩
    · rw [st.setPermit_rep_of_ne h hk]
      exact ⟨rfl, rfl, Iff.rfl⟩
  constructor
  case allocated_nodup => exact hp.allocated_nodup
  case nodup =>
    intro c
    rw [setPermit_members]
    exact hp.nodup c
  case mem_iff =>
    intro c k
    rw [setPermit_members, (hrep k).2.1]
    exact hp.mem_iff c k
  case lazy_inactive =>
    intro k hk
    rw [(hrep k).1]
    exact hp.lazy_inactive k hk
  case holdsOnlyOwned =>
    intro k hal hout hlazy
    exact (hrep k).2.2.mpr (hp.holdsOnlyOwned k hal hout hlazy)

theorem add (hout : h ∈ out) (hal : h ∈ st.allocated) (hholds : (st.rep h).HoldsOnlyOwned) :
    Placed (out \ {h}) (st.addPermit h (st.rep h).state) where
  allocated_nodup := by
    rw [addPermit_allocated]
    exact hp.allocated_nodup
  nodup := fun c => by
    have hnot := hp.notMem_of_out hout c
    rw [(st.addPermit_members h c hnot).nodup_iff]
    split
    · exact nodup_cons.mpr ⟨hnot, hp.nodup c⟩
    · exact hp.nodup c
  mem_iff := fun c k => by
    have hnot := hp.notMem_of_out hout c
    rw [(st.addPermit_members h c hnot).mem_iff, addPermit_allocated, addPermit_rep,
      Set.mem_sdiff, Set.mem_singleton_iff]
    by_cases hk : k = h
    · subst hk
      split <;> rename_i hc
      · simp [hal, hc]
      · simp [hnot, hc]
    · have hmem : (k ∈ if (st.rep h).container = some c then h :: st.members c
          else st.members c) ↔ k ∈ st.members c := by
        split
        · rw [mem_cons]
          tauto
        · exact Iff.rfl
      rw [hmem, hp.mem_iff c k]
      tauto
  lazy_inactive := fun k hk => by
    rw [addPermit_lazyInactivePermit] at hk
    rw [addPermit_allocated, addPermit_rep]
    obtain ⟨hal', hkout, hst⟩ := hp.lazy_inactive k hk
    exact ⟨hal', fun hmem => hkout hmem.1, hst⟩
  holdsOnlyOwned := fun k hkal hkout hlazy => by
    rw [addPermit_allocated] at hkal
    rw [addPermit_lazyInactivePermit] at hlazy
    rw [addPermit_rep]
    by_cases hk : k = h
    · subst hk
      exact hholds
    · exact hp.holdsOnlyOwned k hkal (fun hmem => hkout ⟨hmem, hk⟩) hlazy

end

end Placed

/-! ## Changes -/

/-- A change that deactivates a permit of the given size takes all it has, if that is one
entry. Changes do not make a permit wait. -/
def PermitChange.EmptiesInactive (c : PermitChange) (size : Nat) : Prop :=
  c.newState ≠ .pending ∧
    (c.newState = .inactive →
      (size ≤ 1 → size ≤ c.newConcurrencies.length) ∧ ∀ n ∈ c.newConcurrencies, n = 0)

theorem storeConcurrencies_length (old new : List Nat) :
    (storeConcurrencies old new).1.length = old.length := by
  induction old generalizing new with
  | nil => cases new <;> rfl
  | cons o old ih =>
    cases new with
    | nil => rfl
    | cons n new => exact congrArg (· + 1) (ih new)

theorem storeConcurrencies_zero {old new : List Nat} (hlen : old.length ≤ new.length)
    (hzero : ∀ n ∈ new, n = 0) : ∀ n ∈ (storeConcurrencies old new).1, n = 0 := by
  induction old generalizing new with
  | nil => cases new <;> exact fun n hn => by cases hn
  | cons o old ih =>
    cases new with
    | nil => exact absurd hlen (Nat.not_succ_le_zero _)
    | cons m new =>
      intro n hn
      obtain rfl | hn := mem_cons.mp hn
      · exact hzero n mem_cons_self
      · exact ih (Nat.le_of_succ_le_succ hlen)
          (fun k hk => hzero k (mem_cons_of_mem m hk)) n hn

theorem Permit.updated_holdsOnlyOwned {p : Permit} {c : PermitChange}
    (hc : c.EmptiesInactive p.concurrency.length) : (p.updated c).HoldsOnlyOwned := by
  intro hsingle hs
  have hsize : p.concurrency.length ≤ 1 :=
    (storeConcurrencies_length p.concurrency c.newConcurrencies).symm.trans_le hsingle
  obtain hs | hs := hs
  · exact absurd hs hc.1
  · obtain ⟨hlen, hzero⟩ := hc.2 hs
    exact storeConcurrencies_zero (hlen hsize) hzero

namespace State

variable {initiator : Option Handle} {first : Bool} {acc : State × Int} {c : PermitChange}

theorem applyChange_allocated :
    (applyChange initiator first acc c).1.allocated = acc.1.allocated := by
  simp only [applyChange]
  rw [addPermit_allocated, setPermit_allocated]
  split
  · rw [removePermit_allocated]
  · rfl

/-- A change writes the permit it names and no other. -/
theorem applyChange_rep :
    (applyChange initiator first acc c).1.rep =
      update acc.1.rep c.handle ((acc.1.rep c.handle).updated c) := by
  simp only [applyChange]
  rw [addPermit_rep]
  unfold setPermit
  split
  · rw [removePermit_rep]
  · rfl

theorem applyChange_size (k : Handle) :
    ((applyChange initiator first acc c).1.rep k).concurrency.length =
      (acc.1.rep k).concurrency.length := by
  rw [applyChange_rep]
  by_cases hk : k = c.handle
  · subst hk
    rw [update_self]
    exact storeConcurrencies_length ..
  · rw [update_of_ne hk]

end State

namespace Placed

variable {out : Set Handle} {st : State} {h : Handle} {initiator : Option Handle} {first : Bool}

theorem writeBack (hp : Placed out st) (hout : h ∈ out) (hal : h ∈ st.allocated) {p : Permit}
    (hholds : p.HoldsOnlyOwned) : Placed (out \ {h}) ((st.setPermit h p).addPermit h p.state) := by
  have hwritten := hp.write hout p
  have hadd := hwritten.add hout hal (by rw [setPermit_rep_self]; exact hholds)
  rw [setPermit_rep_self] at hadd
  exact hadd

/-- The initiator of an update is taken out before and put back by its change. -/
theorem applyChange_initiator {acc : State × Int} {c : PermitChange} (hp : Placed out acc.1)
    (hout : c.handle ∈ out) (hal : c.handle ∈ acc.1.allocated)
    (hc : c.EmptiesInactive (acc.1.rep c.handle).concurrency.length) :
    Placed (out \ {c.handle}) (State.applyChange (some c.handle) false acc c).1 := by
  have hback := hp.writeBack hout hal (updated_holdsOnlyOwned hc)
  apply hback.congr
  case hrep => simp [State.applyChange, updated]
  case hal => simp [State.applyChange, updated]
  case hmem => intro k; cases k <;> simp [State.applyChange, updated, State.members]
  case hlazy => simp [State.applyChange, updated]

theorem applyChange {acc : State × Int} {c : PermitChange} (hp : Placed out acc.1)
    (hfirst : initiator ≠ some c.handle ∨ first = true) (hout : c.handle ∉ out)
    (hal : c.handle ∈ acc.1.allocated)
    (hc : c.EmptiesInactive (acc.1.rep c.handle).concurrency.length) :
    Placed out (State.applyChange initiator first acc c).1 := by
  have hremoved : Placed (insert c.handle out)
      (acc.1.removePermit c.handle (acc.1.rep c.handle).state) := hp.remove
  have hback := hremoved.writeBack (Set.mem_insert _ _)
    (by rw [removePermit_allocated]; exact hal) (updated_holdsOnlyOwned hc)
  rw [Set.insert_sdiff_self_of_notMem hout] at hback
  apply hback.congr
  case hrep => simp [State.applyChange, updated, hfirst]
  case hal => simp [State.applyChange, updated, hfirst]
  case hmem => intro k; cases k <;> simp [State.applyChange, updated, State.members, hfirst]
  case hlazy => simp [State.applyChange, updated, hfirst]

theorem applyChanges {cs : List PermitChange} {acc : State × Int} (hp : Placed out acc.1)
    (hcs : ∀ c ∈ cs, (initiator ≠ some c.handle ∨ first = true) ∧ c.handle ∉ out ∧
      c.handle ∈ acc.1.allocated ∧
      c.EmptiesInactive (acc.1.rep c.handle).concurrency.length) :
    Placed out (cs.foldl (State.applyChange initiator first) acc).1 := by
  induction cs generalizing acc with
  | nil => exact hp
  | cons c rest ih =>
    obtain ⟨hfirst, hout, hal, hc⟩ := hcs c mem_cons_self
    apply ih (hp.applyChange hfirst hout hal hc)
    intro c' hc'
    rw [applyChange_allocated, applyChange_size]
    exact hcs c' (mem_cons_of_mem c hc')

end Placed

end OneTbb.Tcm
