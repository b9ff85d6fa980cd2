import OneTbb.Tcm.Negotiation

/-!
# Thread composability manager: distribution over one snapshot

A request without constraints is satisfied from a single snapshot. These are the
decisions `calculate_updates` makes then.
-/

namespace OneTbb.Tcm

open OneTbb.Tcm.Distribution Word

variable {isNested : Bool} {lo hi : Nat} {s : NegotiableSnapshot}

/-- What the stakeholders of a list can give up together. -/
def totalNegotiable (xs : List Stakeholder) : Nat := (xs.map Stakeholder.numNegotiable).sum

/-- The outcome of the first loop: nothing was required, the required was looked for
with success or in part, or the constraint is left pending. -/
inductive RequiredOutcome (lo : Nat) (isNested : Bool) (s : NegotiableSnapshot)
    (d : Distribution) : Prop
  | nothing : lo = 0 → isNested = false → d.leftToFind = 0 →
      d.fulfillment.pendingConstraintsIndices = [] → d.fulfillment.numSatisfiable = 0 →
      d.fulfillment.decisions = [{}] → RequiredOutcome lo isNested s d
  | looked : s.adjustedMinConcurrency ≤ (requiredDecision lo s).toAssign + isNested.toNat →
      d.leftToFind = lo - (requiredDecision lo s).toAssign →
      d.fulfillment.pendingConstraintsIndices = [] →
      d.fulfillment.numSatisfiable = Word.add 0 (requiredDecision lo s).toAssign →
      d.fulfillment.decisions = [requiredDecision lo s] → RequiredOutcome lo isNested s d
  | pending : (requiredDecision lo s).toAssign + isNested.toNat < s.adjustedMinConcurrency →
      d.fulfillment.pendingConstraintsIndices = [0] → d.fulfillment.numSatisfiable = 0 →
      d.fulfillment.decisions = [{ toNegotiate := (requiredDecision lo s).toNegotiate }] →
      RequiredOutcome lo isNested s d

theorem requireAll_single :
    RequiredOutcome lo isNested s ((start lo isNested).requireAll 0 [s]) := by
  simp only [requireAll]
  split
  · simp only [require]
    split
    · rename_i hmin
      exact .looked (hmin.trans (Nat.le_add_right _ _)) rfl rfl rfl rfl
    · split
      · rename_i hmin
        exact .looked hmin rfl rfl rfl rfl
      · rename_i hmin
        exact .pending (Nat.lt_of_not_le hmin) rfl rfl rfl
  · rename_i hcond
    have hlo : lo = 0 := by
      by_contra hne
      exact hcond (.inl hne)
    have hnested : isNested = false := Bool.eq_false_iff.mpr fun h => hcond (.inr h)
    exact .nothing hlo hnested hlo rfl rfl rfl

/-- The second loop either leaves the decision as it is or grows it. -/
inductive DesiredOutcome (left : Nat) (s : NegotiableSnapshot) (decision : FulfillmentDecision)
    (numSatisfiable : Nat) (f : Fulfillment) : Prop
  | kept : left = 0 ∨ canGrow decision s = false → f.pendingConstraintsIndices = [] →
      f.numSatisfiable = numSatisfiable → f.decisions = [decision] →
      DesiredOutcome left s decision numSatisfiable f
  | grown : canGrow decision s = true → f.pendingConstraintsIndices = [] →
      f.numSatisfiable = Word.add numSatisfiable
        ((growth left decision s).1 + (growth left decision s).2) →
      f.decisions = [grownDecision decision s (growth left decision s)] →
      DesiredOutcome left s decision numSatisfiable f

theorem saturateAll_single {d : Distribution} {decision : FulfillmentDecision}
    (hpending : d.fulfillment.pendingConstraintsIndices = []) (hnone : d.fulfillment.decisions = []) :
    DesiredOutcome d.leftToFind s decision d.fulfillment.numSatisfiable
      (d.saturateAll 0 [(s, decision)]).fulfillment := by
  simp only [saturateAll]
  split
  · -- placing the inherited resource changes none of the counts
    have hplaced : ∃ d' : Distribution, (if d.hasImplicitResource ∧
        decision.toAssign < s.adjustedMaxConcurrency then d.inherit 0 else d) = d' ∧
        d'.leftToFind = d.leftToFind ∧ d'.fulfillment.pendingConstraintsIndices = [] ∧
        d'.fulfillment.numSatisfiable = d.fulfillment.numSatisfiable ∧
        d'.fulfillment.decisions = [] := by
      split
      · exact ⟨_, rfl, rfl, hpending, rfl, hnone⟩
      · exact ⟨_, rfl, rfl, hpending, rfl, hnone⟩
    obtain ⟨d', hd', hleft, hpend, hnum, hdec⟩ := hplaced
    simp only [saturate, hd']
    split
    · rename_i hgrow
      apply DesiredOutcome.grown hgrow
      · simp [hpend]
      · simp [hnum, hleft]
      · simp [hdec, hleft]
    · rename_i hgrow
      apply DesiredOutcome.kept (.inr (Bool.eq_false_iff.mpr hgrow))
      · simp [hpend]
      · simp [hnum]
      · simp [hdec]
  · rename_i hleft
    apply DesiredOutcome.kept (.inl (not_not.mp hleft))
    · simp [hpending]
    · simp
    · simp [hnone]

/-! ## What the decision comes to -/

/-- The counts of a snapshot are words, and no greater than what the stakeholders can
give up. -/
structure NegotiableSnapshot.Covered (s : NegotiableSnapshot) : Prop where
  immediate_lt : s.immediatelyAvailable < 4294967296
  idle_lt : s.negotiableIdle < 4294967296
  idle_le : s.negotiableIdle ≤ totalNegotiable s.idlePermits
  active_le : s.negotiableActive ≤ totalNegotiable s.activePermits

theorem requiredDecision_bounds (lo : Nat) (s : NegotiableSnapshot) :
    ∃ immediate, immediate ≤ s.immediatelyAvailable ∧
      (requiredDecision lo s).toAssign = immediate + (requiredDecision lo s).toNegotiate ∧
      (requiredDecision lo s).toAssign ≤ min lo s.adjustedMaxConcurrency ∧
      (requiredDecision lo s).toNegotiate ≤ s.numNegotiable ∧
      ((requiredDecision lo s).toNegotiate ≠ 0 → immediate = s.immediatelyAvailable) ∧
      ((requiredDecision lo s).toAssign < min lo s.adjustedMaxConcurrency →
        (requiredDecision lo s).toAssign = s.immediatelyAvailable + s.numNegotiable) := by
  refine ⟨min s.immediatelyAvailable (min lo s.adjustedMaxConcurrency), Nat.min_le_left _ _,
    rfl, ?_, Nat.min_le_left _ _, ?_, ?_⟩
  · simp only [requiredDecision]
    omega
  · intro hne
    simp only [requiredDecision] at hne
    omega
  · intro hlt
    simp only [requiredDecision] at hlt ⊢
    omega

/-- What is available beyond what is assigned is never overrated. -/
theorem signed_sub_le {imm a : Nat} (himm : imm < 4294967296) (ha : a < 2147483648) :
    (max 0 (Word.signed (Word.signed imm - Word.signed a))).toNat ≤ imm - a := by
  unfold Word.signed
  omega

/-- The decision that meets the required concurrency: what is immediately available
is used up before anything is negotiated. -/
structure MeetsRequired (lo : Nat) (s : NegotiableSnapshot) (d : FulfillmentDecision) : Prop where
  toAssign_eq : d.toAssign = lo
  immediate : ∃ immediate, immediate ≤ s.immediatelyAvailable ∧
    lo = immediate + d.toNegotiate ∧ (d.toNegotiate ≠ 0 → immediate = s.immediatelyAvailable)
  toNegotiate_le : d.toNegotiate ≤ s.numNegotiable
  queues : d.toNegotiate = 0 ∧ d.idlePermits = [] ∧ d.activePermits = [] ∨
    d.idlePermits = s.idlePermits ∧ d.activePermits = s.activePermits

/-- The two outcomes of `calculate_updates` on one snapshot: the required concurrency is
out of reach, or it is met and then exceeded as far as possible. -/
inductive SingleOutcome (isNested : Bool) (lo hi : Nat) (s : NegotiableSnapshot)
    (f : Fulfillment) : Prop
  | unmet (d : FulfillmentDecision) : f.decisions = [d] →
      d = requiredDecision lo s ∨ d = { toNegotiate := (requiredDecision lo s).toNegotiate } →
      f.pendingConstraintsIndices ≠ [] ∨ f.numSatisfiable < lo →
      (s.adjustedMinConcurrency ≤ lo + isNested.toNat → lo ≤ s.adjustedMaxConcurrency →
        s.immediatelyAvailable + s.numNegotiable < lo) →
      SingleOutcome isNested lo hi s f
  | met (d : FulfillmentDecision) : MeetsRequired lo s d →
      DesiredOutcome (Word.sub hi lo) s d lo f → SingleOutcome isNested lo hi s f

theorem calculateUpdates_single (hlo : lo < 2147483648) (f : Fulfillment)
    (hf : f = calculateUpdates isNested ⟨lo, hi, [s]⟩) : SingleOutcome isNested lo hi s f := by
  have hrequired : RequiredOutcome lo isNested s ((start lo isNested).requireAll 0 [s]) :=
    requireAll_single
  obtain ⟨immediate, himm, hassign, hle, hneg, hall, hmax⟩ := requiredDecision_bounds lo s
  have hword : Word.add 0 (requiredDecision lo s).toAssign = (requiredDecision lo s).toAssign := by
    rw [add_of_lt (by omega), zero_add]
  simp only [calculateUpdates] at hf
  generalize (start lo isNested).requireAll 0 [s] = d at hrequired hf
  cases hrequired with
  | nothing hzero _ hleft hpend hnum hdec =>
    subst hzero
    rw [if_neg (by simp [hleft, hpend]), hdec] at hf
    have hdesired := @saturateAll_single s (d.restart (Word.sub hi 0)) {} hpend rfl
    have hnum' : (d.restart (Word.sub hi 0)).fulfillment.numSatisfiable = 0 := hnum
    rw [hnum'] at hdesired
    subst hf
    exact SingleOutcome.met {} ⟨rfl, ⟨0, Nat.zero_le _, rfl, fun h => absurd rfl h⟩,
      Nat.zero_le _, .inl ⟨rfl, rfl, rfl⟩⟩ hdesired
  | looked hmin hleft hpend hnum hdec =>
    by_cases hfound : (requiredDecision lo s).toAssign < lo
    · rw [if_pos (by left; omega)] at hf
      subst hf
      apply SingleOutcome.unmet _ hdec (.inl rfl)
      · right
        rw [hnum, hword]
        exact hfound
      · intro _ hlomax
        omega
    · rw [if_neg (by simp [hpend]; omega), hdec] at hf
      have heq : (requiredDecision lo s).toAssign = lo := by omega
      have hdesired := @saturateAll_single s (d.restart (Word.sub hi lo)) (requiredDecision lo s)
        hpend rfl
      have hnum' : (d.restart (Word.sub hi lo)).fulfillment.numSatisfiable = lo := by
        rw [hword, heq] at hnum
        exact hnum
      rw [hnum'] at hdesired
      subst hf
      exact SingleOutcome.met (requiredDecision lo s) ⟨heq,
        ⟨immediate, himm, by omega, hall⟩, hneg, .inr ⟨rfl, rfl⟩⟩ hdesired
  | pending hmin hpend hnum hdec =>
    rw [if_pos (by right; rw [hpend]; exact List.cons_ne_nil _ _)] at hf
    subst hf
    apply SingleOutcome.unmet _ hdec (.inr rfl)
    · left
      rw [hpend]
      exact List.cons_ne_nil _ _
    · intro _ hlomax
      omega

/-- A decision that can grow has taken nothing from active permits, and what is added
is available or idle. -/
theorem growth_bounds {left : Nat} {d : FulfillmentDecision} {s : NegotiableSnapshot}
    (hs : s.Covered) (hlo : lo < 2147483648) (hd : MeetsRequired lo s d)
    (hgrow : canGrow d s = true) :
    (growth left d s).1 + (growth left d s).2 ≤ left ∧
      lo + (growth left d s).1 ≤ s.immediatelyAvailable + d.toNegotiate ∧
      d.toNegotiate + (growth left d s).2 ≤ s.negotiableIdle := by
  obtain ⟨immediate, himm, hsplit, hall⟩ := hd.immediate
  have hassign := hd.toAssign_eq
  have hlti := hs.immediate_lt
  have hidle := hs.idle_lt
  have hsub : Word.sub d.toAssign d.toNegotiate = immediate := by
    rw [sub_of_le (by omega) (by omega)]
    omega
  have hle : d.toNegotiate ≤ s.negotiableIdle := by
    simp only [canGrow, hsub, Bool.or_eq_true, bne_iff_ne, decide_eq_true_eq,
      sub_of_le himm hlti] at hgrow
    omega
  have havail := signed_sub_le hlti (hassign ▸ hlo)
  simp only [growth, sub_of_le hle hidle]
  generalize (max 0 (Word.signed (Word.signed s.immediatelyAvailable -
    Word.signed d.toAssign))).toNat = available at havail ⊢
  generalize Word.sub s.adjustedMaxConcurrency s.adjustedMinConcurrency = room
  omega

/-- The decision on a snapshot, and where its stakeholders come from. -/
structure CoveredDecision (s : NegotiableSnapshot) (d : FulfillmentDecision) : Prop where
  toAssign_le : d.toAssign ≤ s.immediatelyAvailable +
    min d.toNegotiate (totalNegotiable d.idlePermits + totalNegotiable d.activePermits)
  idle_eq : d.idlePermits = [] ∨ d.idlePermits = s.idlePermits
  active_eq : d.activePermits = [] ∨ d.activePermits = s.activePermits

theorem NegotiableSnapshot.Covered.numNegotiable_le (hs : s.Covered) :
    s.numNegotiable ≤ totalNegotiable s.idlePermits + totalNegotiable s.activePermits :=
  (add_le _ _).trans (Nat.add_le_add hs.idle_le hs.active_le)

theorem MeetsRequired.covered {d : FulfillmentDecision} (hd : MeetsRequired lo s d)
    (hs : s.Covered) : CoveredDecision s d := by
  obtain ⟨immediate, himm, hsplit, _⟩ := hd.immediate
  have hassign := hd.toAssign_eq
  have hneg := hd.toNegotiate_le
  have hnum := hs.numNegotiable_le
  obtain ⟨hzero, hidle, hactive⟩ | ⟨hidle, hactive⟩ := hd.queues
  · exact ⟨by omega, .inl hidle, .inl hactive⟩
  · exact ⟨by rw [hidle, hactive]; omega, .inr hidle, .inr hactive⟩

section

variable (hs : s.Covered) (hlo : lo < 2147483648)
include hs hlo

theorem coveredDecision_grown {d : FulfillmentDecision} {left : Nat} (hd : MeetsRequired lo s d) (hgrow : canGrow d s = true) :
    CoveredDecision s (grownDecision d s (growth left d s)) := by
  have hbounds : _ ∧ _ ∧ _ := @growth_bounds lo left d s hs hlo hd hgrow
  generalize growth left d s = more at hbounds ⊢
  obtain ⟨_, hmore, hneg⟩ := hbounds
  constructor
  case toAssign_le =>
    have hassign := hd.toAssign_eq
    have hidle := hs.idle_le
    have hidlelt := hs.idle_lt
    have hadd : (grownDecision d s more).toNegotiate = d.toNegotiate + more.2 :=
      add_of_lt (by omega)
    have hle : (grownDecision d s more).toAssign ≤ d.toAssign + (more.1 + more.2) :=
      add_le _ _
    rw [hadd, grownDecision_idlePermits]
    omega
  case idle_eq =>
    rw [grownDecision_idlePermits]
    exact .inr rfl
  case active_eq =>
    rw [grownDecision_activePermits]
    obtain ⟨_, _, hactive⟩ | ⟨_, hactive⟩ := hd.queues
    · exact .inl hactive
    · exact .inr hactive

/-- What is added is taken from idle permits. -/
theorem grownDecision_toNegotiate_le {d : FulfillmentDecision} {left : Nat} (hd : MeetsRequired lo s d) (hgrow : canGrow d s = true) :
    (grownDecision d s (growth left d s)).toNegotiate ≤ totalNegotiable s.idlePermits := by
  have hbounds := @growth_bounds lo left d s hs hlo hd hgrow
  have hadd := add_le d.toNegotiate (growth left d s).2
  have hidle := hs.idle_le
  change Word.add d.toNegotiate (growth left d s).2 ≤ _
  omega

/-- However far a request is satisfied, what it is assigned is available or is taken
from the stakeholders. -/
theorem calculateUpdates_covered {f : Fulfillment}
    (hf : f = calculateUpdates isNested ⟨lo, hi, [s]⟩) :
    ∃ d, f.decisions = [d] ∧ CoveredDecision s d := by
  cases calculateUpdates_single hlo f hf with
  | unmet d hdec hd _ _ =>
    refine ⟨d, hdec, ?_⟩
    obtain rfl | rfl := hd
    · obtain ⟨immediate, himm, hassign, _, hneg, _, _⟩ := requiredDecision_bounds lo s
      have hnum := hs.numNegotiable_le
      have hle : (requiredDecision lo s).toAssign ≤ s.immediatelyAvailable + min
          (requiredDecision lo s).toNegotiate
          (totalNegotiable s.idlePermits + totalNegotiable s.activePermits) := by
        omega
      exact ⟨hle, .inr rfl, .inr rfl⟩
    · exact ⟨Nat.zero_le _, .inl rfl, .inl rfl⟩
  | met d hd hdesired =>
    cases hdesired with
    | kept _ _ _ hkept => exact ⟨d, hkept, hd.covered hs⟩
    | grown hgrow _ _ hgrown => exact ⟨_, hgrown, coveredDecision_grown hs hlo hd hgrow⟩

/-- A request that is accepted gets at least the required and at most the desired. -/
theorem calculateUpdates_accepted (hhi : lo ≤ hi)
    (hhi' : hi < 2147483648) {f : Fulfillment} (hf : f = calculateUpdates isNested ⟨lo, hi, [s]⟩)
    (hpend : f.pendingConstraintsIndices = []) (hsat : lo ≤ f.numSatisfiable) :
    ∃ d, f.decisions = [d] ∧ CoveredDecision s d ∧ lo ≤ d.toAssign ∧ d.toAssign ≤ hi ∧
      lo ≤ s.immediatelyAvailable + s.numNegotiable := by
  cases calculateUpdates_single hlo f hf with
  | unmet d hdec _ hun _ =>
    obtain hun | hun := hun
    · exact absurd hpend hun
    · omega
  | met d hd hdesired =>
    obtain ⟨immediate, himm, hsplit, _⟩ := hd.immediate
    have hneg := hd.toNegotiate_le
    have hassign := hd.toAssign_eq
    cases hdesired with
    | kept _ _ _ hkept =>
      exact ⟨d, hkept, hd.covered hs, by omega, by omega, by omega⟩
    | grown hgrow _ _ hgrown =>
      have hcovered := @coveredDecision_grown lo s hs hlo d (Word.sub hi lo) hd hgrow
      have hbounds : _ ∧ _ ∧ _ := @growth_bounds lo (Word.sub hi lo) d s hs hlo hd hgrow
      rw [sub_of_le hhi (by omega)] at hbounds hcovered hgrown
      refine ⟨_, hgrown, hcovered, ?_⟩
      generalize growth (hi - lo) d s = more at hbounds ⊢
      have hadd : (grownDecision d s more).toAssign = d.toAssign + (more.1 + more.2) :=
        add_of_lt (by omega)
      rw [hadd]
      omega

theorem calculateUpdates_accepts (hhi : lo ≤ hi)
    (hhi' : hi < 2147483648) {f : Fulfillment} (hf : f = calculateUpdates isNested ⟨lo, hi, [s]⟩)
    (hmin : s.adjustedMinConcurrency ≤ lo + isNested.toNat) (hmax : lo ≤ s.adjustedMaxConcurrency)
    (hcover : lo ≤ s.immediatelyAvailable + s.numNegotiable) :
    f.pendingConstraintsIndices = [] ∧ lo ≤ f.numSatisfiable := by
  cases calculateUpdates_single hlo f hf with
  | unmet d _ _ _ hun =>
    have := hun hmin hmax
    omega
  | met d hd hdesired =>
    cases hdesired with
    | kept _ hpend hnum _ => exact ⟨hpend, hnum.ge⟩
    | grown hgrow hpend hnum _ =>
      have hbounds : _ ∧ _ ∧ _ := @growth_bounds lo (Word.sub hi lo) d s hs hlo hd hgrow
      rw [sub_of_le hhi (by omega)] at hbounds hnum
      generalize growth (hi - lo) d s = more at hbounds hnum
      rw [add_of_lt (by omega)] at hnum
      exact ⟨hpend, by omega⟩

/-- A request whose minimum is available takes more from idle permits only. -/
theorem calculateUpdates_idleFirst {f : Fulfillment}
    (hf : f = calculateUpdates isNested ⟨lo, hi, [s]⟩)
    (hpend : f.pendingConstraintsIndices = []) (hsat : lo ≤ f.numSatisfiable)
    (himm : lo ≤ s.immediatelyAvailable) :
    ∃ d, f.decisions = [d] ∧ CoveredDecision s d ∧
      d.toNegotiate ≤ totalNegotiable d.idlePermits := by
  cases calculateUpdates_single hlo f hf with
  | unmet d hdec _ hun _ =>
    obtain hun | hun := hun
    · exact absurd hpend hun
    · omega
  | met d hd hdesired =>
    obtain ⟨immediate, hle, hsplit, hall⟩ := hd.immediate
    have hneg : d.toNegotiate = 0 := by
      by_contra hne
      have := hall hne
      omega
    cases hdesired with
    | kept _ _ _ hkept => exact ⟨d, hkept, hd.covered hs, by omega⟩
    | grown hgrow _ _ hgrown =>
      exact ⟨_, hgrown, coveredDecision_grown hs hlo hd hgrow,
        grownDecision_toNegotiate_le hs hlo hd hgrow⟩

end

end OneTbb.Tcm
