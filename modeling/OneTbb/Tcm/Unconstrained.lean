import OneTbb.Tcm.Changes
import OneTbb.Tcm.Sound

/-!
# Thread composability manager: requests without constraints

When no permit has constraints, each holds a single number of resources. The search for
one of them sees all others as stakeholders, and the changes it leads to hand out only
what is there.
-/

namespace OneTbb.Tcm

open List State Word

/-- A permit without constraints. -/
structure Permit.Plain (p : Permit) : Prop where
  unconstrained : p.request.cpuConstraints = none
  single : p.concurrency.length = 1
  word : p.request.IsWord

theorem Permit.Plain.min_lt {p : Permit} (hp : p.Plain) :
    p.adjustedMinSwThreads.toNat < 2147483648 := by
  have := hp.word.min_lt
  unfold Permit.adjustedMinSwThreads
  omega

/-- A state with the permits in place, the resources in balance, nothing wrapped and no
constraints. -/
structure Settled (P : Platform) (out : Set Handle) (st : State) : Prop where
  placed : Placed out st
  balanced : Balanced P 0 st
  unwrapped : st.wrapped = false
  plain : ∀ h ∈ st.allocated, (st.rep h).Plain

variable {P : Platform} {out : Set Handle} {st : State} {h : Handle}

variable {ks : List Handle} {p : Permit}

theorem Permit.Plain.concurrency_eq {p : Permit} (hp : p.Plain) :
    p.concurrency = [p.concurrency.sum] := by
  obtain ⟨g, hg⟩ := length_eq_one_iff.mp hp.single
  rw [hg]
  rfl

namespace Settled

/-- Everything is available or held. -/
theorem total (hs : Settled P out st) :
    st.availableConcurrency + st.held = P.platformResources := by
  have := hs.balanced.exact hs.unwrapped
  omega

section

variable (hs : Settled P out st) (hal : h ∈ st.allocated)
include hs hal

theorem available_add_le :
    st.availableConcurrency + (st.rep h).concurrency.sum ≤ P.platformResources := by
  have hle : (st.rep h).concurrency.sum ≤ st.held :=
    Ledger.le_total (w := fun p : Permit => p.concurrency.sum) hal
  have := hs.total
  omega

theorem sum_lt :
    (st.rep h).concurrency.sum < 4294967296 := by
  have := hs.available_add_le hal
  have := P.platformResources_lt
  omega

theorem grant_eq :
    (st.rep h).grant = (st.rep h).concurrency.sum := sum_of_lt (hs.sum_lt hal)

end

end Settled

/-! ## The snapshot -/

/-- What a permit can give up: an idle one all it has. -/
def Permit.negotiablePart (p : Permit) : Nat :=
  if p.state = .idle then p.grant else p.numNegotiable

/-- Another permit than the given one, with something to give. -/
def State.contributes (st : State) (h k : Handle) : Bool :=
  k ≠ h && (st.rep k).isNegotiable && decide (0 < (st.rep k).negotiablePart)

theorem State.contributes_iff {k : Handle} : st.contributes h k = true ↔
    k ≠ h ∧ (st.rep k).isNegotiable = true ∧ 0 < (st.rep k).negotiablePart := by
  simp [contributes, and_assoc]

/-- The permit as a stakeholder with all it can give up. -/
def State.asStakeholder (st : State) (k : Handle) : Stakeholder :=
  { handle := k, constraintIndex := none, numNegotiable := (st.rep k).negotiablePart }

/-- The loop of `gather_stakeholders` adds exactly the permits that contribute. -/
theorem gatherStakeholders_eq_foldl (permits : List Handle) (s : NegotiableSnapshot) :
    st.gatherStakeholders h permits s = permits.foldl (fun s k =>
      if st.contributes h k then s.add (st.asStakeholder k) (st.rep k).state else s) s := by
  unfold gatherStakeholders
  simp only [contributes_iff]
  rfl

theorem gatherStakeholders_idle {permits : List Handle} {s : NegotiableSnapshot}
    (hidle : ∀ k ∈ permits, (st.rep k).state ≠ .active) :
    st.gatherStakeholders h permits s =
      { s with
        negotiableIdle := ((permits.filter (st.contributes h)).map
          fun k => (st.rep k).negotiablePart).foldl Word.add s.negotiableIdle
        idlePermits := s.idlePermits ++ (permits.filter (st.contributes h)).map
          st.asStakeholder } := by
  rw [gatherStakeholders_eq_foldl]
  induction permits generalizing s with
  | nil => simp
  | cons k rest ih =>
    have hrest : ∀ k ∈ rest, (st.rep k).state ≠ .active :=
      fun k' hk' => hidle k' (mem_cons_of_mem k hk')
    rw [foldl_cons, ih hrest]
    by_cases hk : st.contributes h k = true
    · rw [if_pos hk, filter_cons_of_pos hk]
      unfold NegotiableSnapshot.add
      rw [if_neg (hidle k mem_cons_self)]
      simp only [map_cons, foldl_cons, append_assoc, singleton_append]
      rfl
    · rw [if_neg hk, filter_cons_of_neg hk]

theorem gatherStakeholders_active {permits : List Handle} {s : NegotiableSnapshot}
    (hactive : ∀ k ∈ permits, (st.rep k).state = .active) :
    st.gatherStakeholders h permits s =
      { s with
        negotiableActive := ((permits.filter (st.contributes h)).map
          fun k => (st.rep k).negotiablePart).foldl Word.add s.negotiableActive
        activePermits := s.activePermits ++ (permits.filter (st.contributes h)).map
          st.asStakeholder } := by
  rw [gatherStakeholders_eq_foldl]
  induction permits generalizing s with
  | nil => simp
  | cons k rest ih =>
    have hrest : ∀ k ∈ rest, (st.rep k).state = .active :=
      fun k' hk' => hactive k' (mem_cons_of_mem k hk')
    rw [foldl_cons, ih hrest]
    by_cases hk : st.contributes h k = true
    · rw [if_pos hk, filter_cons_of_pos hk]
      unfold NegotiableSnapshot.add
      rw [if_pos (hactive k mem_cons_self)]
      simp only [map_cons, foldl_cons, append_assoc, singleton_append]
      rfl
    · rw [if_neg hk, filter_cons_of_neg hk]

/-- What the permits of a container that contribute can give up. -/
def State.contributions (st : State) (h : Handle) (permits : List Handle) : List Nat :=
  (permits.filter (st.contributes h)).map fun k => (st.rep k).negotiablePart

theorem totalNegotiable_asStakeholder (permits : List Handle) :
    totalNegotiable ((permits.filter (st.contributes h)).map st.asStakeholder) =
      (st.contributions h permits).sum := by
  unfold totalNegotiable contributions
  rw [map_map]
  rfl

/-- The active permits that count as stakeholders: all of them, unless the minimum is
reached. -/
def State.activeStakeholders (st : State) (h : Handle) : List Handle :=
  if (st.rep h).concurrency.headD 0 < Word.ofInt (st.rep h).request.minSwThreads then
    st.activePermits
  else []

theorem unconstrainedSnapshot_eq (hp : Placed out st) :
    st.unconstrainedSnapshot h =
      { immediatelyAvailable :=
          Word.add ((st.rep h).concurrency.headD 0) st.availableConcurrency
        adjustedMinConcurrency := Word.ofInt (st.rep h).request.minSwThreads
        adjustedMaxConcurrency := Word.ofInt (st.rep h).request.maxSwThreads
        negotiableIdle := Word.sum (st.contributions h st.idlePermits)
        idlePermits := (st.idlePermits.filter (st.contributes h)).map st.asStakeholder
        negotiableActive := Word.sum (st.contributions h (st.activeStakeholders h))
        activePermits :=
          ((st.activeStakeholders h).filter (st.contributes h)).map st.asStakeholder } := by
  have hidle : ∀ k ∈ st.idlePermits, (st.rep k).state ≠ .active := by
    intro k hk
    rw [Permit.idle_of_container ((hp.mem_iff .idle k).mp hk).2.2]
    decide
  have hactive : ∀ k ∈ st.activePermits, (st.rep k).state = .active :=
    fun k hk => Permit.active_of_container ((hp.mem_iff .active k).mp hk).2.2
  unfold unconstrainedSnapshot activeStakeholders
  simp only
  rw [gatherStakeholders_idle hidle]
  split
  · rw [gatherStakeholders_active hactive]
    rfl
  · rfl

/-- The stakeholders of the snapshot can give what its sums promise. -/
theorem unconstrainedSnapshot_covered (hp : Placed out st) :
    (st.unconstrainedSnapshot h).Covered := by
  have hsum (xs : List Nat) : Word.sum xs ≤ xs.sum := by
    rw [sum_eq]
    exact Nat.mod_le _ _
  rw [unconstrainedSnapshot_eq hp]
  constructor
  case immediate_lt => exact add_lt _ _
  case idle_lt => exact sum_lt _
  case idle_le =>
    rw [totalNegotiable_asStakeholder]
    exact hsum _
  case active_le =>
    rw [totalNegotiable_asStakeholder]
    exact hsum _

/-! ## The search -/

/-- What the search finds for a permit without constraints. -/
def State.plainFulfillment (st : State) (h : Handle) : Fulfillment :=
  if 0 < (st.rep h).request.maxSwThreads then
    calculateUpdates (st.rep h).isNested
      { adjustedMinSwThreads := (st.rep h).adjustedMinSwThreads.toNat
        adjustedMaxSwThreads := (st.rep h).adjustedMaxSwThreads.toNat
        stakeholders := [st.unconstrainedSnapshot h] }
  else {}

/-- Without constraints the search leaves the permit as it is. -/
theorem trySatisfyRequest_plain (hp : (st.rep h).Plain) :
    st.trySatisfyRequest P h = (st.plainFulfillment h, st.rep h) := by
  unfold trySatisfyRequest plainFulfillment
  simp only [hp.unconstrained, hp.single]
  split
  · rfl
  · rfl

/-! ## What the stakeholders give -/

/-- No permit gives more than it has: the minimum it keeps, when there is one, pays for
the resource it inherits. -/
theorem Permit.negotiablePart_le (hlt : p.concurrency.sum < 4294967296) :
    p.negotiablePart ≤ p.concurrency.sum := by
  have hgrant : p.grant = p.concurrency.sum := sum_of_lt hlt
  have hinherited : p.inherited ≤ 1 := Bool.toNat_le _
  have hadd : Word.add p.grant p.inherited ≤ p.grant + p.inherited := add_le _ _
  have haddlt : Word.add p.grant p.inherited < 4294967296 := add_lt _ _
  unfold negotiablePart numNegotiable
  simp only
  split
  · exact hgrant.le
  · split
    · exact hgrant.le
    · split
      · exact Nat.zero_le _
      · rename_i hmin hle
        rw [sub_of_le (Nat.le_of_not_lt hle) haddlt]
        omega

section Negotiated

variable {k : Handle} {n : Nat}

theorem Permit.Plain.reduced_eq (hp : p.Plain)
    (hlt : p.concurrency.sum < 4294967296) (hn : n ≤ p.concurrency.sum) :
    p.reduced 0 n = [p.concurrency.sum - n] := by
  unfold reduced
  rw [copiedConcurrency_of_single hp.single.le, hp.concurrency_eq]
  simp only [modify_zero_cons, sum_singleton]
  rw [sub_of_le hn hlt]

/-- A stakeholder keeps the rest or, deactivated, nothing. -/
theorem negotiated_newConcurrencies (hs : Settled P out st) (hal : k ∈ st.allocated)
    (hn : n ≤ (st.rep k).concurrency.sum) :
    (st.negotiated (st.asStakeholder k, n)).newConcurrencies =
      if (st.rep k).shallDeactivate none n then [0] else [(st.rep k).concurrency.sum - n] := by
  have hreduced : (st.rep k).reduced 0 n = [(st.rep k).concurrency.sum - n] :=
    (hs.plain k hal).reduced_eq (hs.sum_lt hal) hn
  unfold negotiated asStakeholder
  simp only [Option.getD_none, hreduced, map_cons, map_nil]

theorem negotiated_underflow (hs : Settled P out st) (hal : k ∈ st.allocated)
    (hn : n ≤ (st.rep k).concurrency.sum) :
    (st.negotiated (st.asStakeholder k, n)).underflow = false := by
  have hp := hs.plain k hal
  have hget : (st.rep k).copiedConcurrency.getD 0 0 = (st.rep k).concurrency.sum := by
    rw [Permit.copiedConcurrency_of_single hp.single.le, hp.concurrency_eq]
    simp
  unfold negotiated asStakeholder
  simp only [Option.getD_none, hget, decide_eq_false_iff_not]
  exact Nat.not_lt_of_le hn

theorem Permit.Plain.store_singleton (hp : p.Plain) (m : Nat) :
    storeConcurrencies p.concurrency [m] = ([m], (p.concurrency.sum : Int) - m) := by
  rw [hp.concurrency_eq]
  simp [storeConcurrencies]

theorem le_givenBack_negotiated (hs : Settled P out st) (hal : k ∈ st.allocated)
    (hn : n ≤ (st.rep k).concurrency.sum) :
    (n : Int) ≤ st.givenBack (st.negotiated (st.asStakeholder k, n)) := by
  have hhandle : (st.negotiated (st.asStakeholder k, n)).handle = k := rfl
  unfold givenBack
  rw [hhandle, negotiated_newConcurrencies hs hal hn]
  split
  · rw [(hs.plain k hal).store_singleton]
    simp only
    omega
  · rw [(hs.plain k hal).store_singleton]
    simp only
    omega

end Negotiated

/-! ## The queue of a decision -/

/-- The stakeholders of a decision in the order they are asked. -/
def stakeholderQueue (P : Platform) (d : FulfillmentDecision) : List Stakeholder :=
  let less := fun a b : Stakeholder => decide (b.numNegotiable < a.numNegotiable)
  P.priorityQueue.drain less d.idlePermits ++ P.priorityQueue.drain less d.activePermits

theorem decisionChanges_eq (d : FulfillmentDecision) :
    st.decisionChanges P d = (shares d.toNegotiate (stakeholderQueue P d)).map st.negotiated := rfl

theorem stakeholderQueue_perm (d : FulfillmentDecision) :
    (stakeholderQueue P d).Perm (d.idlePermits ++ d.activePermits) :=
  (P.priorityQueue.drain_perm _ _).append (P.priorityQueue.drain_perm _ _)

theorem totalNegotiable_stakeholderQueue (d : FulfillmentDecision) :
    totalNegotiable (stakeholderQueue P d) =
      totalNegotiable d.idlePermits + totalNegotiable d.activePermits := by
  rw [totalNegotiable_perm (stakeholderQueue_perm d), totalNegotiable_append]

/-- The permits asked: different ones that run, none of them the requested one. -/
structure Asked (out : Set Handle) (st : State) (h : Handle) (ks : List Handle) : Prop where
  nodup : ks.Nodup
  allocated : ∀ k ∈ ks, k ∈ st.allocated
  notMem_out : ∀ k ∈ ks, k ∉ out
  running : ∀ k ∈ ks, (st.rep k).state = .idle ∨ (st.rep k).state = .active
  contributes : ∀ k ∈ ks, st.contributes h k = true

theorem Asked.ne (hks : Asked out st h ks) : ∀ k ∈ ks, k ≠ h :=
  fun k hk => (contributes_iff.mp (hks.contributes k hk)).1

theorem Asked.sublist {ks ks' : List Handle} (hks : Asked out st h ks) (hsub : ks'.Sublist ks) :
    Asked out st h ks' where
  nodup := hks.nodup.sublist hsub
  allocated := fun k hk => hks.allocated k (hsub.subset hk)
  notMem_out := fun k hk => hks.notMem_out k (hsub.subset hk)
  running := fun k hk => hks.running k (hsub.subset hk)
  contributes := fun k hk => hks.contributes k (hsub.subset hk)

theorem Asked.perm {ks ks' : List Handle} (hks : Asked out st h ks) (hperm : ks'.Perm ks) :
    Asked out st h ks' where
  nodup := hperm.nodup_iff.mpr hks.nodup
  allocated := fun k hk => hks.allocated k (hperm.subset hk)
  notMem_out := fun k hk => hks.notMem_out k (hperm.subset hk)
  running := fun k hk => hks.running k (hperm.subset hk)
  contributes := fun k hk => hks.contributes k (hperm.subset hk)

/-- The contributors of the two containers can be asked together. -/
theorem asked_contributors (hp : Placed out st) :
    Asked out st h
      (st.idlePermits.filter (st.contributes h) ++ st.activePermits.filter (st.contributes h)) := by
  have hmem (k : Handle) (hk : k ∈ st.idlePermits.filter (st.contributes h) ++
      st.activePermits.filter (st.contributes h)) :
      st.IsCompetitor h k ∧ st.contributes h k = true := by
    obtain hk | hk := mem_append.mp hk
    · obtain ⟨hmem, hcon⟩ := mem_filter.mp hk
      exact ⟨⟨(contributes_iff.mp hcon).1, .inl hmem⟩, hcon⟩
    · obtain ⟨hmem, hcon⟩ := mem_filter.mp hk
      exact ⟨⟨(contributes_iff.mp hcon).1, .inr hmem⟩, hcon⟩
  constructor
  case nodup =>
    apply Nodup.append
    · exact (hp.nodup .idle).filter _
    · exact (hp.nodup .active).filter _
    · intro k hk hk'
      have h₁ := ((hp.mem_iff .idle k).mp (mem_of_mem_filter hk)).2.2
      have h₂ := ((hp.mem_iff .active k).mp (mem_of_mem_filter hk')).2.2
      rw [h₁] at h₂
      cases h₂
  case allocated => exact fun k hk => ((hmem k hk).1.placed hp).1
  case notMem_out => exact fun k hk => ((hmem k hk).1.placed hp).2.1
  case running => exact fun k hk => ((hmem k hk).1.placed hp).2.2
  case contributes => exact fun k hk => (hmem k hk).2

/-- The queue of a decision on the snapshot asks permits for all they can give. -/
theorem stakeholderQueue_asked (hp : Placed out st) {d : FulfillmentDecision}
    (hd : CoveredDecision (st.unconstrainedSnapshot h) d) :
    ∃ ks, Asked out st h ks ∧ stakeholderQueue P d = ks.map st.asStakeholder := by
  have hactive : ((st.activeStakeholders h).filter (st.contributes h)).Sublist
      (st.activePermits.filter (st.contributes h)) := by
    apply Sublist.filter
    unfold activeStakeholders
    split
    · exact Sublist.refl _
    · exact nil_sublist _
  have hlists : ∃ is as : List Handle, (is.Sublist (st.idlePermits.filter (st.contributes h))) ∧
      (as.Sublist (st.activePermits.filter (st.contributes h))) ∧
      d.idlePermits = is.map st.asStakeholder ∧ d.activePermits = as.map st.asStakeholder := by
    have hidle_eq := hd.idle_eq
    have hactive_eq := hd.active_eq
    rw [unconstrainedSnapshot_eq hp] at hidle_eq hactive_eq
    obtain hi | hi := hidle_eq
    · obtain ha | ha := hactive_eq
      · exact ⟨[], [], nil_sublist _, nil_sublist _, hi, ha⟩
      · exact ⟨[], _, nil_sublist _, hactive, hi, ha⟩
    · obtain ha | ha := hactive_eq
      · exact ⟨_, [], Sublist.refl _, nil_sublist _, hi, ha⟩
      · exact ⟨_, _, Sublist.refl _, hactive, hi, ha⟩
  obtain ⟨is, as, his, has, hi, ha⟩ := hlists
  have hperm : (stakeholderQueue P d).Perm ((is ++ as).map st.asStakeholder) := by
    rw [map_append, ← hi, ← ha]
    exact stakeholderQueue_perm d
  have hhandles : ((stakeholderQueue P d).map Stakeholder.handle).Perm (is ++ as) := by
    have := hperm.map Stakeholder.handle
    rw [map_map] at this
    simpa [Function.comp_def, asStakeholder] using this
  refine ⟨(stakeholderQueue P d).map Stakeholder.handle, ?_, ?_⟩
  · exact ((asked_contributors hp).sublist (his.append has)).perm hhandles
  · have hself : ∀ s ∈ stakeholderQueue P d, s = st.asStakeholder s.handle := by
      intro s hs
      obtain ⟨k, _, rfl⟩ := mem_map.mp (hperm.subset hs)
      rfl
    calc
      stakeholderQueue P d = (stakeholderQueue P d).map id := (map_id _).symm
      _ = (stakeholderQueue P d).map (st.asStakeholder ∘ Stakeholder.handle) :=
        map_congr_left hself
      _ = ((stakeholderQueue P d).map Stakeholder.handle).map st.asStakeholder :=
        map_map.symm

/-! ## The changes of a negotiation -/

/-- A share is of a permit asked, and no larger than what the permit has. -/
theorem share_of_asked (hs : Settled P out st) (hks : Asked out st h ks)
    {n : Nat} {share : Stakeholder × Nat} (hshare : share ∈ shares n (ks.map st.asStakeholder)) :
    ∃ k ∈ ks, share = (st.asStakeholder k, share.2) ∧
      share.2 ≤ (st.rep k).concurrency.sum := by
  have hmem : share.1 ∈ ks.map st.asStakeholder :=
    (shares_sublist n _).subset (mem_map_of_mem hshare)
  obtain ⟨k, hk, heq⟩ := mem_map.mp hmem
  refine ⟨k, hk, Prod.ext heq.symm rfl, ?_⟩
  calc
    share.2 ≤ share.1.numNegotiable := shares_le share hshare
    _ = (st.rep k).negotiablePart := by rw [← heq]; rfl
    _ ≤ (st.rep k).concurrency.sum :=
      Permit.negotiablePart_le (hs.sum_lt (hks.allocated k hk))

theorem handles_negotiated (n : Nat) :
    (((shares n (ks.map st.asStakeholder)).map st.negotiated).map PermitChange.handle).Sublist
      ks := by
  have hsub := (shares_sublist n (ks.map st.asStakeholder)).map Stakeholder.handle
  rw [map_map, map_map] at hsub
  rw [map_map]
  simpa [Function.comp_def, asStakeholder, negotiated] using hsub

theorem le_sum_givenBack (hs : Settled P out st) (hks : Asked out st h ks) (n : Nat) :
    ((min n (totalNegotiable (ks.map st.asStakeholder)) : Nat) : Int) ≤
      (((shares n (ks.map st.asStakeholder)).map st.negotiated).map st.givenBack).sum := by
  rw [← sum_shares, map_map]
  have hle : ∀ share ∈ shares n (ks.map st.asStakeholder),
      (share.2 : Int) ≤ st.givenBack (st.negotiated share) := by
    intro share hshare
    obtain ⟨k, hk, heq, hn⟩ := share_of_asked hs hks hshare
    rw [heq]
    exact le_givenBack_negotiated hs (hks.allocated k hk) hn
  generalize shares n (ks.map st.asStakeholder) = l at hle
  induction l with
  | nil => exact le_refl _
  | cons share rest ih =>
    have hhead := hle share mem_cons_self
    have htail := ih fun s hs' => hle s (mem_cons_of_mem share hs')
    simp only [map_cons, sum_cons, Function.comp_apply] at htail ⊢
    omega

/-- The changes can be applied one after the other without anything wrapping. -/
structure Affordable (out : Set Handle) (st : State) (h : Handle) (cs : List PermitChange) :
    Prop where
  asked : Asked out st h (cs.map PermitChange.handle)
  underflow : ∀ c ∈ cs, c.underflow = false

/-- A negotiation on one decision: the shares of the permits asked, then the request. -/
theorem negotiate_eq (hp : Placed out st) {f : Fulfillment} {d : FulfillmentDecision}
    (hf : f.decisions = [d]) (hd : CoveredDecision (st.unconstrainedSnapshot h) d) :
    ∃ ks, Asked out st h ks ∧ stakeholderQueue P d = ks.map st.asStakeholder ∧
      st.negotiate P f h = (shares d.toNegotiate (ks.map st.asStakeholder)).map st.negotiated ++
        [requestedChange f h] := by
  obtain ⟨ks, hks, hqueue⟩ := @stakeholderQueue_asked P out st h hp d hd
  refine ⟨ks, hks, hqueue, ?_⟩
  have hasked := hks.sublist (@handles_negotiated st ks d.toNegotiate)
  unfold negotiate
  rw [hf, flatMap_singleton, decisionChanges_eq, hqueue, mergeChanges_of_nodup hasked.nodup,
    ← hf]
  rfl

theorem negotiate_single (hs : Settled P out st) {f : Fulfillment} {d : FulfillmentDecision}
    (hf : f.decisions = [d]) (hd : CoveredDecision (st.unconstrainedSnapshot h) d) :
    ∃ cs, st.negotiate P f h = cs ++ [requestedChange f h] ∧ Affordable out st h cs ∧
      ((min d.toNegotiate (totalNegotiable d.idlePermits + totalNegotiable d.activePermits) : Nat)
        : Int) ≤ (cs.map st.givenBack).sum := by
  obtain ⟨ks, hks, hqueue, hnegotiate⟩ := @negotiate_eq P out st h hs.placed f d hf hd
  refine ⟨_, hnegotiate, ?_, ?_⟩
  · constructor
    case asked => exact hks.sublist (handles_negotiated d.toNegotiate)
    case underflow =>
      intro c hc
      obtain ⟨share, hshare, rfl⟩ := mem_map.mp hc
      obtain ⟨k, hk, heq, hn⟩ := share_of_asked hs hks hshare
      rw [heq]
      exact negotiated_underflow hs (hks.allocated k hk) hn
  · rw [← totalNegotiable_stakeholderQueue, hqueue]
    exact le_sum_givenBack hs hks _

/-! ## Applying the changes -/

theorem plainFulfillment_cases (hs : Settled P out st) (hal : h ∈ st.allocated) :
    (st.plainFulfillment h).decisions = [] ∨
      ∃ d, (st.plainFulfillment h).decisions = [d] ∧
        CoveredDecision (st.unconstrainedSnapshot h) d := by
  have hlo := (hs.plain h hal).min_lt
  unfold plainFulfillment
  split
  · exact .inr (calculateUpdates_covered (unconstrainedSnapshot_covered hs.placed) hlo rfl)
  · exact .inl rfl

/-- What the request is given is available, its own, or given up by others. -/
theorem negotiate_affordable (hs : Settled P out st) (hal : h ∈ st.allocated) :
    ∃ cs, st.negotiate P (st.plainFulfillment h) h =
        cs ++ [requestedChange (st.plainFulfillment h) h] ∧ Affordable out st h cs ∧
      0 ≤ (st.availableConcurrency : Int) + ((cs ++ [requestedChange (st.plainFulfillment h) h]).map
        st.givenBack).sum := by
  have hplain := hs.plain h hal
  obtain hnone | ⟨d, hdec, hd⟩ := plainFulfillment_cases hs hal
  · refine ⟨[], ?_, ?_, ?_⟩
    · unfold negotiate
      rw [hnone]
      unfold requestedChange
      rw [hnone]
      rfl
    · constructor
      case asked => exact ⟨nodup_nil, by simp, by simp, by simp, by simp⟩
      case underflow => intro c hc; cases hc
    · have hzero : st.givenBack (requestedChange (st.plainFulfillment h) h) = 0 := by
        unfold givenBack requestedChange
        rw [hnone]
        cases (st.rep h).concurrency <;> rfl
      simp [hzero]
  · obtain ⟨cs, hcs, hafford, hgiven⟩ := negotiate_single hs hdec hd
    refine ⟨cs, hcs, hafford, ?_⟩
    have hback : st.givenBack (requestedChange (st.plainFulfillment h) h) =
        ((st.rep h).concurrency.sum : Int) - d.toAssign := by
      unfold givenBack requestedChange
      simp only [hdec, map_cons, map_nil]
      rw [hplain.store_singleton]
    have himm : (st.unconstrainedSnapshot h).immediatelyAvailable ≤
        (st.rep h).concurrency.sum + st.availableConcurrency := by
      rw [unconstrainedSnapshot_eq hs.placed]
      have hhead : (st.rep h).concurrency.headD 0 = (st.rep h).concurrency.sum := by
        rw [hplain.concurrency_eq]
        simp
      simp only [hhead]
      exact add_le _ _
    have hassign := hd.toAssign_le
    simp only [map_append, map_cons, map_nil, sum_append, sum_cons,
      sum_nil, hback]
    omega

end OneTbb.Tcm
