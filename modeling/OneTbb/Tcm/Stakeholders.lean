import OneTbb.Tcm.Placement

/-!
# Thread composability manager: whom a request takes from

The stakeholders a search finds are permits that own resources, never the permit it
searches for. The changes made of them are complete: a permit that is deactivated
gives up everything.
-/

namespace OneTbb.Tcm

open List

variable {q : Stakeholder → Prop} {P : Platform} {st : State} {h : Handle}

/-! ## The handles of a snapshot -/

/-- The stakeholders of a snapshot have a property. -/
def NegotiableSnapshot.Names (q : Stakeholder → Prop) (s : NegotiableSnapshot) : Prop :=
  ∀ x, x ∈ s.idlePermits ∨ x ∈ s.activePermits → q x

theorem NegotiableSnapshot.Names.add {s : NegotiableSnapshot} (hs : s.Names q) {x : Stakeholder}
    (hx : q x) (state : PermitState) : (s.add x state).Names q := by
  intro y hy
  unfold NegotiableSnapshot.add at hy
  split at hy
  · simp only [mem_append, mem_singleton] at hy
    obtain hy | hy | rfl := hy
    · exact hs y (.inl hy)
    · exact hs y (.inr hy)
    · exact hx
  · simp only [mem_append, mem_singleton] at hy
    obtain (hy | rfl) | hy := hy
    · exact hs y (.inl hy)
    · exact hx
    · exact hs y (.inr hy)

theorem NegotiableSnapshot.names_of_nil {s : NegotiableSnapshot} (hi : s.idlePermits = [])
    (ha : s.activePermits = []) : s.Names q := by
  intro x hx
  rw [hi, ha] at hx
  obtain hx | hx := hx <;> cases hx

/-- So do those of the masks set apart. -/
structure MaskSearch.Names (q : Stakeholder → Prop) (s : MaskSearch) : Prop where
  snapshot : s.snapshot.Names q
  separate : ∀ c ∈ s.separateMasks, q c.stakeholder

variable {d : Distribution} {s : MaskSearch} {current : Nat} {share : Stakeholder × Nat}

theorem MaskSearch.Names.visit {s : MaskSearch} (hs : s.Names q) {c : Competitor}
    (hc : q c.stakeholder) (current : Nat) (mask : CpuMask) :
    (s.visit P current mask c).Names q := by
  have hsep : ∀ d ∈ s.separateMasks ++ [c], q d.stakeholder := by
    intro d hd
    obtain hd | hd := mem_append.mp hd
    · exact hs.separate d hd
    · rw [mem_singleton.mp hd]
      exact hc
  unfold MaskSearch.visit
  simp only
  constructor
  · split <;> split <;> split <;>
      first | exact hs.snapshot.add hc _ | exact hs.snapshot
  · split <;> split <;> split <;>
      first | exact hs.separate | exact hsep

theorem MaskSearch.Names.foldl_visit (hs : s.Names q) {cs : List Competitor}
    (hcs : ∀ c ∈ cs, q c.stakeholder) (current : Nat) (mask : CpuMask) :
    (cs.foldl (MaskSearch.visit P current mask) s).Names q := by
  induction cs generalizing s with
  | nil => exact hs
  | cons c rest ih =>
    apply ih (hs.visit (hcs c mem_cons_self) current mask)
    intro d hd
    exact hcs d (mem_cons_of_mem c hd)

theorem leftoverRound_names {queue kept : List Competitor} {applied : Bool}
    (hs : s.snapshot.Names q)
    (hqueue : ∀ c ∈ queue, q c.stakeholder) (hkept : ∀ c ∈ kept, q c.stakeholder) :
    (MaskSearch.leftoverRound P current queue kept applied s).2.2.snapshot.Names q ∧
      ∀ c ∈ (MaskSearch.leftoverRound P current queue kept applied s).1,
        q c.stakeholder := by
  induction queue generalizing kept applied s with
  | nil => exact ⟨hs, hkept⟩
  | cons c rest ih =>
    have hc := hqueue c mem_cons_self
    have hrest : ∀ d ∈ rest, q d.stakeholder :=
      fun d hd => hqueue d (mem_cons_of_mem c hd)
    unfold MaskSearch.leftoverRound
    split
    · apply ih _ hrest hkept
      split
      · exact hs.add hc _
      · exact hs
    · split
      · apply ih hs hrest
        intro d hd
        obtain hd | hd := mem_append.mp hd
        · exact hkept d hd
        · rw [mem_singleton.mp hd]
          exact hc
      · exact ih hs hrest hkept

theorem findLeftoverCompetitors_names {current rounds : Nat} {queue : List Competitor}
    (hs : s.snapshot.Names q) (hqueue : ∀ c ∈ queue, q c.stakeholder) :
    (s.findLeftoverCompetitors P current rounds queue).snapshot.Names q := by
  induction rounds generalizing queue s with
  | zero => exact hs
  | succ rounds ih =>
    have hround : (MaskSearch.leftoverRound P current queue [] false s).2.2.snapshot.Names q ∧
        ∀ c ∈ (MaskSearch.leftoverRound P current queue [] false s).1, q c.stakeholder :=
      leftoverRound_names hs hqueue (fun c hc => by cases hc)
    unfold MaskSearch.findLeftoverCompetitors
    generalize MaskSearch.leftoverRound P current queue [] false s = result at hround ⊢
    obtain ⟨kept, applied, s'⟩ := result
    cases applied with
    | true => exact ih hround.1 hround.2
    | false => exact hround.1

/-- A permit that competes with another one for resources. -/
def State.IsCompetitor (st : State) (h k : Handle) : Prop :=
  k ≠ h ∧ (k ∈ st.idlePermits ∨ k ∈ st.activePermits)

/-- A stakeholder that is such a permit. -/
def State.Competes (st : State) (h : Handle) (x : Stakeholder) : Prop := st.IsCompetitor h x.handle

theorem competitors_compete {processMask : CpuMask} {c : Competitor}
    (hc : c ∈ st.competitors h processMask) : st.Competes h c.stakeholder := by
  obtain ⟨k, hk, hmem⟩ := mem_flatMap.mp hc
  obtain ⟨hk, hne⟩ := mem_filter.mp hk
  obtain ⟨i, _, rfl⟩ := mem_map.mp hmem
  exact ⟨of_decide_eq_true hne, mem_append.mp hk⟩

section Constraints

variable {processMask : CpuMask} (hq : ∀ c ∈ st.competitors h processMask, q c.stakeholder)
include hq

theorem trySatisfy_names {mask : CpuMask} {lo hi current : Nat} :
    (st.trySatisfy P h processMask lo hi current mask).Names q := by
  have hvisited : ∀ s : MaskSearch, s.snapshot.idlePermits = [] →
      s.snapshot.activePermits = [] → s.separateMasks = [] →
      ((st.competitors h processMask).foldl (MaskSearch.visit P current mask) s).Names q := by
    intro s hidle hactive hseparate
    apply MaskSearch.Names.foldl_visit
    · constructor
      · exact NegotiableSnapshot.names_of_nil hidle hactive
      · intro c hc
        rw [hseparate] at hc
        cases hc
    · exact hq
  exact findLeftoverCompetitors_names (hvisited _ rfl rfl rfl).snapshot
    (hvisited _ rfl rfl rfl).separate

theorem considerNode_names {c : CpuConstraints} {choice : NodeChoice}
    (hchoice : choice.snapshot.Names q) (node : Int) :
    (st.considerNode P h processMask c current choice node).snapshot.Names q := by
  unfold State.considerNode
  simp only
  split
  · exact hchoice
  · unfold NodeChoice.consider
    split
    · split
      · split
        · exact trySatisfy_names hq
        · exact hchoice
      · split
        · exact trySatisfy_names hq
        · exact hchoice
    · split
      · exact trySatisfy_names hq
      · exact hchoice

theorem trySatisfyConstraint_names {cpuMask : CpuMask} {c : CpuConstraints} :
    (st.trySatisfyConstraint P h processMask c current cpuMask).snapshot.Names q := by
  unfold State.trySatisfyConstraint
  split
  · exact trySatisfy_names hq
  · unfold State.trySatisfyHighLevelConstraints
    split
    · generalize P.numaIndices = nodes
      change ((nodes.foldl _ ({} : NodeChoice)).snapshot).Names _
      have hstart : ({} : NodeChoice).snapshot.Names q :=
        NegotiableSnapshot.names_of_nil rfl rfl
      generalize ({} : NodeChoice) = choice at hstart ⊢
      induction nodes generalizing choice with
      | nil => exact hstart
      | cons node rest ih => exact ih _ (considerNode_names hq hstart node)
    · exact trySatisfy_names hq

theorem trySatisfyConstraints_names {constraints : List CpuConstraints}
    {s : ConstraintSearch} (hs : s ∈ st.trySatisfyConstraints P h processMask constraints) :
    s.snapshot.Names q := by
  have hsearch : ∀ s ∈ constraints.mapIdx (fun i c => st.trySatisfyConstraint P h processMask c
      ((st.rep h).concurrency.getD i 0) ((st.rep h).cpuMask.getD i ∅)), s.snapshot.Names q := by
    intro s hs
    obtain ⟨i, hi, rfl⟩ := mem_mapIdx.mp hs
    exact trySatisfyConstraint_names hq
  simp only [State.trySatisfyConstraints] at hs
  split at hs
  · obtain ⟨s', hs', rfl⟩ := mem_map.mp hs
    unfold ConstraintSearch.pinMask
    split
    · exact hsearch s' hs'
    · exact hsearch s' hs'
  · exact hsearch s hs

end Constraints

theorem gatherStakeholders_names {permits : List Handle} {s : NegotiableSnapshot}
    (hpermits : ∀ k ∈ permits, k ∈ st.idlePermits ∨ k ∈ st.activePermits)
    (hs : s.Names (st.Competes h)) :
    (st.gatherStakeholders h permits s).Names (st.Competes h) := by
  unfold State.gatherStakeholders
  induction permits generalizing s with
  | nil => exact hs
  | cons k rest ih =>
    rw [foldl_cons]
    apply ih (fun k' hk' => hpermits k' (mem_cons_of_mem k hk'))
    simp only
    generalize (if (st.rep k).state = .idle then (st.rep k).grant
      else (st.rep k).numNegotiable) = negotiable
    split
    · rename_i hk
      exact hs.add ⟨hk.1, hpermits k mem_cons_self⟩ _
    · exact hs

theorem unconstrainedSnapshot_names :
    (st.unconstrainedSnapshot h).Names (st.Competes h) := by
  have hidle : ∀ s : NegotiableSnapshot, s.idlePermits = [] → s.activePermits = [] →
      (st.gatherStakeholders h st.idlePermits s).Names (st.Competes h) := by
    intro s hi ha
    exact gatherStakeholders_names (fun k hk => .inl hk)
      (NegotiableSnapshot.names_of_nil hi ha)
  unfold State.unconstrainedSnapshot
  simp only
  split
  · exact gatherStakeholders_names (fun k hk => .inr hk) (hidle _ rfl rfl)
  · exact hidle _ rfl rfl

/-! ## The handles of a fulfillment -/

/-- The stakeholders of a decision have a property. -/
def FulfillmentDecision.Names (q : Stakeholder → Prop) (d : FulfillmentDecision) : Prop :=
  ∀ x, x ∈ d.idlePermits ∨ x ∈ d.activePermits → q x

theorem FulfillmentDecision.names_of_nil {d : FulfillmentDecision} (hi : d.idlePermits = [])
    (ha : d.activePermits = []) : d.Names q := by
  intro x hx
  rw [hi, ha] at hx
  obtain hx | hx := hx <;> cases hx

/-- The stakeholders of all decisions have a property. -/
def Fulfillment.Names (q : Stakeholder → Prop) (f : Fulfillment) : Prop :=
  ∀ d ∈ f.decisions, d.Names q

namespace Distribution

theorem names_record {decision : FulfillmentDecision}
    {earlier : List FulfillmentDecision} (hearlier : ∀ e ∈ earlier, e.Names q)
    (heq : d.fulfillment.decisions = earlier) (hdecision : decision.Names q) :
    (d.record decision).fulfillment.Names q := by
  intro e he
  rw [record_decisions, heq] at he
  obtain he | he := mem_append.mp he
  · exact hearlier e he
  · rw [mem_singleton.mp he]
    exact hdecision

section

variable (hd : d.fulfillment.Names q)
include hd

theorem names_require {cns : NegotiableSnapshot}
    (hcns : cns.Names q) (i : Nat) : (d.require i cns).fulfillment.Names q := by
  have hdecision : (requiredDecision d.leftToFind cns).Names q := hcns
  simp only [require]
  split
  · exact names_record hd rfl hdecision
  · split
    · exact names_record hd rfl hdecision
    · exact names_record hd rfl (FulfillmentDecision.names_of_nil rfl rfl)

theorem names_requireAll {sh : List NegotiableSnapshot} (hsh : ∀ cns ∈ sh, cns.Names q) (i : Nat) :
    (d.requireAll i sh).fulfillment.Names q := by
  induction sh generalizing d i with
  | nil => exact hd
  | cons cns rest ih =>
    have hrest : ∀ cns ∈ rest, cns.Names q := fun s hs => hsh s (mem_cons_of_mem cns hs)
    unfold requireAll
    split
    · exact ih (names_require hd (hsh cns mem_cons_self) i) hrest (i + 1)
    · exact ih (names_record hd rfl (FulfillmentDecision.names_of_nil rfl rfl)) hrest (i + 1)

theorem names_saturate {cns : NegotiableSnapshot}
    {decision : FulfillmentDecision} (hcns : cns.Names q)
    (hdecision : decision.Names q) (i : Nat) :
    (d.saturate i cns decision).fulfillment.Names q := by
  have hgrown : ∀ more, (grownDecision decision cns more).Names q := by
    intro more x hx
    rw [grownDecision_idlePermits, grownDecision_activePermits] at hx
    obtain hx | hx := hx
    · exact hcns x (.inl hx)
    · exact hdecision x (.inr hx)
  have hplaced : (if d.hasImplicitResource ∧ decision.toAssign < cns.adjustedMaxConcurrency then
      d.inherit i else d).fulfillment.decisions = d.fulfillment.decisions := by
    split <;> rfl
  simp only [saturate]
  generalize (if d.hasImplicitResource ∧ decision.toAssign < cns.adjustedMaxConcurrency then
    d.inherit i else d) = placed at hplaced ⊢
  split
  · exact names_record hd (by rw [found_decisions, negotiating_decisions, hplaced]) (hgrown _)
  · exact names_record hd hplaced hdecision

theorem names_saturateAll {pairs : List (NegotiableSnapshot × FulfillmentDecision)}
    (hpairs : ∀ x ∈ pairs, x.1.Names q ∧ x.2.Names q) (i : Nat) :
    (d.saturateAll i pairs).fulfillment.Names q := by
  induction pairs generalizing d i with
  | nil => exact hd
  | cons x rest ih =>
    have hx := hpairs x mem_cons_self
    have hrest : ∀ x ∈ rest, x.1.Names q ∧ x.2.Names q :=
      fun y hy => hpairs y (mem_cons_of_mem x hy)
    unfold saturateAll
    split
    · exact ih (names_saturate hd hx.1 hx.2 i) hrest (i + 1)
    · exact ih (names_record hd rfl hx.2) hrest (i + 1)

end

end Distribution

theorem calculateUpdates_names {isNested : Bool} {cache : StakeholderCache}
    (hcache : ∀ cns ∈ cache.stakeholders, cns.Names q) :
    (calculateUpdates isNested cache).Names q := by
  have hrequired : ∀ d : Distribution, d.fulfillment.decisions = [] →
      (d.requireAll 0 cache.stakeholders).fulfillment.Names q := by
    intro d hd
    apply Distribution.names_requireAll _ hcache
    intro e he
    rw [hd] at he
    cases he
  simp only [calculateUpdates]
  split
  · exact hrequired _ rfl
  · apply Distribution.names_saturateAll
    · intro e he
      cases he
    · intro x hx
      exact ⟨hcache x.1 (of_mem_zip hx).1, hrequired _ rfl x.2 (of_mem_zip hx).2⟩

theorem trySatisfyRequest_names : (st.trySatisfyRequest P h).1.Names (st.Competes h) := by
  have hcalculated : ∀ (p : Permit) (sh : List NegotiableSnapshot),
      (∀ cns ∈ sh, cns.Names (st.Competes h)) →
      (if 0 < p.request.maxSwThreads then
        (calculateUpdates p.isNested
          { adjustedMinSwThreads := p.adjustedMinSwThreads.toNat
            adjustedMaxSwThreads := p.adjustedMaxSwThreads.toNat
            stakeholders := sh }, p)
        else (({} : Fulfillment), p)).1.Names (st.Competes h) := by
    intro p sh hsh
    split
    · exact calculateUpdates_names hsh
    · intro d hd
      cases hd
  have hunconstrained : ∀ cns ∈ st.unconstrainedSnapshot h ::
      List.replicate ((st.rep h).concurrency.length - 1) {}, cns.Names (st.Competes h) := by
    intro cns hcns
    obtain rfl | hcns := mem_cons.mp hcns
    · exact unconstrainedSnapshot_names
    · rw [eq_of_mem_replicate hcns]
      exact NegotiableSnapshot.names_of_nil rfl rfl
  unfold State.trySatisfyRequest
  simp only
  split
  · apply hcalculated
    intro cns hcns
    obtain ⟨s, hs, rfl⟩ := mem_map.mp hcns
    exact trySatisfyConstraints_names (fun c hc => competitors_compete hc) hs
  · exact hcalculated _ _ hunconstrained

/-- The search changes only the bounds it infers and the masks it finds. -/
theorem trySatisfyRequest_permit :
    ∃ (masks : List CpuMask) (constraints : Option (List CpuConstraints)) (max : Int),
      constraints.isSome = (st.rep h).request.cpuConstraints.isSome ∧
      (st.trySatisfyRequest P h).2 =
        { st.rep h with
          cpuMask := masks
          request := { (st.rep h).request with
            cpuConstraints := constraints
            maxSwThreads := max } } := by
  have hsnd : ∀ (p : Permit) (f g : Fulfillment),
      (if 0 < p.request.maxSwThreads then (f, p) else (g, p)).2 = p := by
    intro p f g
    split <;> rfl
  unfold State.trySatisfyRequest
  simp only
  split
  · rename_i constraints processMask hconstraints _
    rw [hsnd]
    exact ⟨_, _, _, by rw [hconstraints]; rfl, rfl⟩
  · rw [hsnd]
    exact ⟨(st.rep h).cpuMask, (st.rep h).request.cpuConstraints, (st.rep h).request.maxSwThreads,
      rfl, rfl⟩

/-! ## Changes of competitors -/

/-- A permit with one entry is copied as a whole. -/
theorem Permit.copiedConcurrency_of_single {p : Permit} (hp : p.concurrency.length ≤ 1) :
    p.copiedConcurrency = p.concurrency := take_of_length_le hp

/-- A change that takes from a competitor: it keeps its state, or it is deactivated
and loses what the change has an entry for. -/
structure PermitChange.TakesFrom (st : State) (h : Handle) (c : PermitChange) : Prop where
  competitor : st.IsCompetitor h c.handle
  size : c.newConcurrencies.length = (st.rep c.handle).copiedConcurrency.length
  state : c.newState = (st.rep c.handle).state ∨
    c.newState = .inactive ∧ ∀ n ∈ c.newConcurrencies, n = 0

theorem negotiated_takesFrom (hshare : st.IsCompetitor h share.1.handle) :
    PermitChange.TakesFrom st h (st.negotiated share) := by
  constructor
  case competitor => exact hshare
  case size =>
    simp only [State.negotiated, Permit.reduced]
    split <;> simp
  case state =>
    simp only [State.negotiated]
    split
    · right
      constructor
      · rfl
      · intro n hn
        obtain ⟨_, _, rfl⟩ := mem_map.mp hn
        rfl
    · exact .inl rfl

theorem zipWith_min_zero {xs : List Nat} (hxs : ∀ n ∈ xs, n = 0) (ys : List Nat) :
    ∀ n ∈ List.zipWith min xs ys, n = 0 := by
  induction xs generalizing ys with
  | nil =>
    intro n hn
    cases hn
  | cons x rest ih =>
    cases ys with
    | nil =>
      intro n hn
      cases hn
    | cons y ys =>
      intro n hn
      obtain rfl | hn := mem_cons.mp hn
      · rw [hxs x mem_cons_self, Nat.zero_min]
      · exact ih (fun k hk => hxs k (mem_cons_of_mem x hk)) ys n hn

theorem PermitChange.TakesFrom.merge {c other : PermitChange}
    (hc : PermitChange.TakesFrom st h c) (hother : PermitChange.TakesFrom st h other)
    (hsame : other.handle = c.handle) : PermitChange.TakesFrom st h (c.merge other) := by
  constructor
  case competitor => exact hc.competitor
  case size =>
    change (List.zipWith min c.newConcurrencies other.newConcurrencies).length = _
    rw [length_zipWith, hc.size, hother.size, hsame, Nat.min_self]
    rfl
  case state =>
    obtain hs | ⟨hs, hzero⟩ := hc.state
    · exact .inl hs
    · right
      constructor
      · exact hs
      · exact zipWith_min_zero hzero other.newConcurrencies

theorem foldl_merge {Q : PermitChange → Prop} {c : PermitChange} {cs : List PermitChange}
    (hmerge : ∀ c other, Q c → Q other → other.handle = c.handle → Q (c.merge other))
    (hc : Q c) (hcs : ∀ d ∈ cs, Q d ∧ d.handle = c.handle) :
    Q (cs.foldl PermitChange.merge c) := by
  induction cs generalizing c with
  | nil => exact hc
  | cons d rest ih =>
    have hd := hcs d mem_cons_self
    apply ih (hmerge c d hc hd.1 hd.2)
    intro e he
    exact hcs e (mem_cons_of_mem d he)

/-- What merging two changes of one permit keeps, merging all changes keeps. -/
theorem mergeChanges_forall {Q : PermitChange → Prop} {cs : List PermitChange}
    (hmerge : ∀ c other, Q c → Q other → other.handle = c.handle → Q (c.merge other))
    (hcs : ∀ c ∈ cs, Q c) : ∀ c ∈ mergeChanges P cs, Q c := by
  intro c hc
  obtain ⟨k, _, hk⟩ := mem_filterMap.mp hc
  have hgroup : ∀ d ∈ P.equalRange (cs.filter (·.handle = k)), Q d ∧ d.handle = k := by
    intro d hd
    have hmem := mem_filter.mp ((P.equalRange_perm _).mem_iff.mp hd)
    exact ⟨hcs d hmem.1, of_decide_eq_true hmem.2⟩
  unfold mergeGroup at hk
  generalize P.equalRange (cs.filter (·.handle = k)) = group at hk hgroup
  cases group with
  | nil => cases hk
  | cons first rest =>
    cases hk
    have hfirst := hgroup first mem_cons_self
    apply foldl_merge hmerge hfirst.1
    intro d hd
    have hd := hgroup d (mem_cons_of_mem first hd)
    exact ⟨hd.1, hd.2.trans hfirst.2.symm⟩

theorem shares_sublist (n : Nat) (queue : List Stakeholder) :
    ((shares n queue).map Prod.fst).Sublist queue := by
  induction queue generalizing n with
  | nil => exact List.Sublist.refl _
  | cons s rest ih =>
    unfold shares
    split
    · exact nil_sublist _
    · exact (ih _).cons_cons s

theorem shares_mem {n : Nat} {queue : List Stakeholder}
    (hshare : share ∈ shares n queue) : share.1 ∈ queue :=
  (shares_sublist n queue).subset (mem_map_of_mem hshare)

theorem decisionChanges_takesFrom {d : FulfillmentDecision} (hd : d.Names (st.Competes h)) :
    ∀ c ∈ st.decisionChanges P d, PermitChange.TakesFrom st h c := by
  intro c hc
  obtain ⟨share, hshare, rfl⟩ := mem_map.mp hc
  apply negotiated_takesFrom
  apply hd
  obtain hmem | hmem := mem_append.mp (shares_mem hshare)
  · exact .inl ((P.priorityQueue.drain_perm _ _).mem_iff.mp hmem)
  · exact .inr ((P.priorityQueue.drain_perm _ _).mem_iff.mp hmem)

/-- The changes of `negotiate` but the last one take from competitors. -/
theorem mergedChanges_takesFrom {f : Fulfillment} (hf : f.Names (st.Competes h)) :
    ∀ c ∈ mergeChanges P (f.decisions.flatMap (st.decisionChanges P)),
      PermitChange.TakesFrom st h c := by
  refine mergeChanges_forall (Q := PermitChange.TakesFrom st h)
    (fun _ _ hc hother hsame => hc.merge hother hsame) ?_
  intro c hc
  obtain ⟨d, hd, hc⟩ := mem_flatMap.mp hc
  exact decisionChanges_takesFrom (hf d hd) c hc

end OneTbb.Tcm
