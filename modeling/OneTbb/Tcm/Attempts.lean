import OneTbb.Tcm.Conservation

/-!
# Thread composability manager: attempts for permits without constraints

An attempt searches resources for a permit and applies the changes this leads to. It
rewrites the permit it is for; every other permit is left alone, gives up part of what it
can, or is deactivated because that leaves it too little.
-/

namespace OneTbb.Tcm

open List State Permit PermitChange

variable {P : Platform} {out : Set Handle} {st : State} {h k : Handle}
  {initiator : Option Handle} {first : Bool}

/-- The state after the search for a permit without constraints was applied. -/
def State.attempted (P : Platform) (st : State) (h : Handle) (initiator : Option Handle)
    (first : Bool) : State :=
  st.apply (st.negotiate P (st.plainFulfillment h) h) initiator first

@[simp] theorem State.attempted_allocated :
    (st.attempted P h initiator first).allocated = st.allocated := apply_allocated ..

/-- What an attempt for another permit does to a permit. -/
inductive Permit.Yields (p : Permit) : Permit → Prop
  | untouched : p.Yields p
  | gives (n : Nat) : p.state = .idle ∨ p.state = .active → p.isNegotiable = true →
      n ≤ p.negotiablePart → p.shallDeactivate none n = false →
      p.Yields { p with concurrency := [p.concurrency.sum - n], inheritedConcurrencyIdx := 0 }
  | deactivated (n : Nat) : p.state = .idle ∨ p.state = .active → p.isNegotiable = true →
      n ≤ p.negotiablePart → p.shallDeactivate none n = true →
      p.Yields { p with state := .inactive, concurrency := [0], inheritedConcurrencyIdx := 0 }

/-- A stakeholder that gives a share yields. -/
theorem yields_negotiated (hs : Settled P out st) (hal : k ∈ st.allocated)
    (hrunning : (st.rep k).state = .idle ∨ (st.rep k).state = .active)
    (hcon : st.contributes h k = true) {n : Nat} (hn : n ≤ (st.rep k).negotiablePart) :
    (st.rep k).Yields ((st.rep k).updated (st.negotiated (st.asStakeholder k, n))) := by
  have hle := hn.trans (negotiablePart_le (hs.sum_lt hal))
  have hnegotiable := (contributes_iff.mp hcon).2.1
  have hnew := negotiated_newConcurrencies hs hal hle
  have hstate : (st.negotiated (st.asStakeholder k, n)).newState =
      if (st.rep k).shallDeactivate none n then .inactive else (st.rep k).state := rfl
  unfold updated
  rw [hnew, hstate]
  cases hdeactivate : (st.rep k).shallDeactivate none n with
  | true =>
    rw [if_pos rfl, if_pos rfl, (hs.plain k hal).store_singleton]
    exact Permit.Yields.deactivated n hrunning hnegotiable hn hdeactivate
  | false =>
    rw [if_neg Bool.false_ne_true, if_neg Bool.false_ne_true, (hs.plain k hal).store_singleton]
    exact Permit.Yields.gives n hrunning hnegotiable hn hdeactivate

theorem State.apply_rep {cs : List PermitChange} (hn : (cs.map handle).Nodup)
    {c : PermitChange} (hc : c ∈ cs) :
    (st.apply cs initiator first).rep c.handle = (st.rep c.handle).updated c :=
  @foldl_applyChange_rep initiator first cs (st, 0) hn c hc

theorem State.apply_rep_of_notMem {cs : List PermitChange}
    (hk : k ∉ cs.map handle) :
    (st.apply cs initiator first).rep k = st.rep k :=
  @foldl_applyChange_rep_of_notMem initiator first cs (st, 0) k hk

theorem handles_nodup {ks : List Handle} (hks : Asked out st h ks) (n : Nat) (f : Fulfillment) :
    (((shares n (ks.map st.asStakeholder)).map st.negotiated ++ [requestedChange f h]).map
      handle).Nodup := by
  have hasked := hks.sublist (@handles_negotiated st ks n)
  rw [map_append]
  apply Nodup.append hasked.nodup (nodup_singleton _)
  intro k hk hk'
  exact hasked.ne k hk (mem_singleton.mp hk')

/-- What the changes of a negotiation on one decision make of the permits. -/
theorem apply_negotiated {ks : List Handle} (hs : Settled P out st) (hks : Asked out st h ks)
    (n : Nat) (f : Fulfillment) :
    (st.apply ((shares n (ks.map st.asStakeholder)).map st.negotiated ++ [requestedChange f h])
        initiator first).rep h = (st.rep h).updated (requestedChange f h) ∧
      ∀ k, k ≠ h → (st.rep k).Yields
        ((st.apply ((shares n (ks.map st.asStakeholder)).map st.negotiated ++
          [requestedChange f h]) initiator first).rep k) := by
  have hnodup := handles_nodup hks n f
  constructor
  · exact apply_rep hnodup (mem_append_right _ (mem_singleton_self _))
  · intro k hkh
    by_cases hasked : k ∈ ((shares n (ks.map st.asStakeholder)).map st.negotiated).map
        handle
    · obtain ⟨c, hc, rfl⟩ := mem_map.mp hasked
      obtain ⟨share, hshare, rfl⟩ := mem_map.mp hc
      obtain ⟨k, hk, heq, _⟩ := share_of_asked hs hks hshare
      have hle : share.2 ≤ (st.rep k).negotiablePart := by
        have := shares_le share hshare
        rw [heq] at this
        exact this
      rw [apply_rep hnodup (mem_append_left _ hc), heq]
      exact yields_negotiated hs (hks.allocated k hk) (hks.running k hk) (hks.contributes k hk) hle
    · have hnot : k ∉ ((shares n (ks.map st.asStakeholder)).map st.negotiated ++
          [requestedChange f h]).map handle := by
        rw [map_append, mem_append, not_or]
        exact ⟨hasked, fun hk => hkh (mem_singleton.mp hk)⟩
      rw [apply_rep_of_notMem hnot]
      exact Permit.Yields.untouched

theorem attempted_rep (hs : Settled P out st) (hal : h ∈ st.allocated) :
    (st.attempted P h initiator first).rep h =
        (st.rep h).updated (requestedChange (st.plainFulfillment h) h) ∧
      ∀ k, k ≠ h → (st.rep k).Yields ((st.attempted P h initiator first).rep k) := by
  unfold attempted
  obtain hnone | ⟨d, hdec, hd⟩ := plainFulfillment_cases hs hal
  · have hnegotiate : st.negotiate P (st.plainFulfillment h) h =
        (shares 0 (([] : List Handle).map st.asStakeholder)).map st.negotiated ++
          [requestedChange (st.plainFulfillment h) h] := by
      unfold negotiate requestedChange
      rw [hnone]
      rfl
    rw [hnegotiate]
    exact apply_negotiated hs ⟨nodup_nil, by simp, by simp, by simp, by simp⟩ _ _
  · obtain ⟨ks, hks, _, hnegotiate⟩ := negotiate_eq hs.placed hdec hd
    rw [hnegotiate]
    exact apply_negotiated hs hks _ _

/-! ## Idle permits are asked first -/

theorem shares_append {n : Nat} {xs ys : List Stakeholder} (hn : n ≤ totalNegotiable xs) :
    shares n (xs ++ ys) = shares n xs := by
  induction xs generalizing n with
  | nil =>
    obtain rfl := Nat.le_zero.mp hn
    cases ys <;> rfl
  | cons x rest ih =>
    have htotal : totalNegotiable (x :: rest) = x.numNegotiable + totalNegotiable rest :=
      sum_cons
    rw [cons_append]
    simp only [shares]
    split
    · rfl
    · rw [ih (by omega)]

/-- Active permits are left alone if the idle ones can give enough. -/
theorem attempted_rep_active (hs : Settled P out st) {d : FulfillmentDecision}
    (hdec : (st.plainFulfillment h).decisions = [d])
    (hd : CoveredDecision (st.unconstrainedSnapshot h) d)
    (henough : d.toNegotiate ≤ totalNegotiable d.idlePermits) (hk : k ≠ h)
    (hactive : (st.rep k).state = .active) :
    (st.attempted P h initiator first).rep k = st.rep k := by
  obtain ⟨ks, hks, hqueue, hnegotiate⟩ := @negotiate_eq P out st h hs.placed _ d hdec hd
  unfold attempted
  rw [hnegotiate]
  apply apply_rep_of_notMem
  rw [map_append, mem_append, not_or]
  refine ⟨?_, fun hmem => hk (mem_singleton.mp hmem)⟩
  intro hmem
  obtain ⟨c, hc, rfl⟩ := mem_map.mp hmem
  obtain ⟨share, hshare, rfl⟩ := mem_map.mp hc
  have hperm := P.priorityQueue.drain_perm
    (fun a b : Stakeholder => decide (b.numNegotiable < a.numNegotiable)) d.idlePermits
  rw [← hqueue] at hshare
  unfold stakeholderQueue at hshare
  simp only at hshare
  rw [shares_append (henough.trans (totalNegotiable_perm hperm).ge)] at hshare
  have hidle : share.1 ∈ d.idlePermits := hperm.subset (shares_mem hshare)
  have hsnapshot : share.1 ∈ (st.unconstrainedSnapshot h).idlePermits := by
    obtain hnil | hall := hd.idle_eq
    · rw [hnil] at hidle
      cases hidle
    · rw [← hall]
      exact hidle
  rw [unconstrainedSnapshot_eq hs.placed] at hsnapshot
  obtain ⟨k, hk, heq⟩ := mem_map.mp hsnapshot
  have hcontainer := ((hs.placed.mem_iff .idle k).mp (mem_of_mem_filter hk)).2.2
  have hhandle : (st.negotiated share).handle = k := by
    change share.1.handle = k
    rw [← heq]
    rfl
  rw [hhandle, idle_of_container hcontainer] at hactive
  cases hactive

/-! ## Requested bounds -/

/-- The bounds of a request are in order. -/
structure PermitRequest.Ordered (req : PermitRequest) : Prop where
  min_nonneg : 0 ≤ req.minSwThreads
  min_le_max : req.minSwThreads ≤ req.maxSwThreads

/-- What a permit has is within its requested bounds, the inherited resource counted in. -/
structure Permit.Within (p : Permit) : Prop where
  min_le : p.adjustedMinSwThreads ≤ p.concurrency.sum
  le_max : (p.concurrency.sum : Int) ≤ p.adjustedMaxSwThreads

/-- The bounds the search works with. -/
structure Permit.SearchBounds (p : Permit) (lo hi : Nat) : Prop where
  lo_eq : (lo : Int) = p.adjustedMinSwThreads
  hi_eq : (hi : Int) = p.adjustedMaxSwThreads
  lo_le_hi : lo ≤ hi
  hi_lt : hi < 2147483648
  requested_min_le : Word.ofInt p.request.minSwThreads ≤ lo + p.isNested.toNat
  le_requested_max : hi ≤ Word.ofInt p.request.maxSwThreads
  room : hi - lo ≤ Word.sub (Word.ofInt p.request.maxSwThreads) (Word.ofInt p.request.minSwThreads)

theorem Permit.searchBounds {p : Permit} (hword : p.request.IsWord) (hord : p.request.Ordered) :
    p.SearchBounds p.adjustedMinSwThreads.toNat p.adjustedMaxSwThreads.toNat := by
  obtain ⟨hmin, hmax⟩ := hord
  have hlt := hword.max_lt
  have hnested : p.isNested.toNat ≤ 1 := Bool.toNat_le _
  have hlo : (Word.ofInt p.request.minSwThreads : Int) = p.request.minSwThreads :=
    Word.ofInt_of_lt hmin (by omega)
  have hhi : (Word.ofInt p.request.maxSwThreads : Int) = p.request.maxSwThreads :=
    Word.ofInt_of_lt (by omega) (by omega)
  have hsub := @Word.sub_of_le (Word.ofInt p.request.maxSwThreads)
    (Word.ofInt p.request.minSwThreads) (by omega) (Word.ofInt_lt _)
  have hmin' : p.adjustedMinSwThreads = max 0 (p.request.minSwThreads - p.isNested.toNat) := rfl
  have hmax' : p.adjustedMaxSwThreads = max 0 (p.request.maxSwThreads - p.isNested.toNat) := rfl
  constructor
  case lo_eq => omega
  case hi_eq => omega
  case lo_le_hi => omega
  case hi_lt => omega
  case requested_min_le => omega
  case le_requested_max => omega
  case room => omega

theorem unconstrainedSnapshot_immediate (hs : Settled P out st) (hal : h ∈ st.allocated) :
    (st.unconstrainedSnapshot h).immediatelyAvailable =
      (st.rep h).concurrency.sum + st.availableConcurrency := by
  have hhead : (st.rep h).concurrency.headD 0 = (st.rep h).concurrency.sum := by
    rw [(hs.plain h hal).concurrency_eq]
    simp
  have hle := hs.available_add_le hal
  have hlt := P.platformResources_lt
  rw [unconstrainedSnapshot_eq hs.placed]
  simp only [hhead]
  exact Word.add_of_lt (by omega)

theorem plainFulfillment_of_pos (hpos : 0 < (st.rep h).request.maxSwThreads) :
    st.plainFulfillment h = calculateUpdates (st.rep h).isNested
      { adjustedMinSwThreads := (st.rep h).adjustedMinSwThreads.toNat
        adjustedMaxSwThreads := (st.rep h).adjustedMaxSwThreads.toNat
        stakeholders := [st.unconstrainedSnapshot h] } := if_pos hpos

/-- Given a single amount, the permit has just that. -/
theorem updated_requestedChange (hp : (st.rep h).Plain) {f : Fulfillment}
    {d : FulfillmentDecision} (hdec : f.decisions = [d]) :
    (st.rep h).updated (requestedChange f h) =
      { st.rep h with
        state := .active
        inheritedConcurrencyIdx := f.toInheritIdx
        concurrency := [d.toAssign] } := by
  unfold updated requestedChange
  simp only [hdec, map_cons, map_nil, hp.store_singleton]

section

variable (hs : Settled P out st) (hal : h ∈ st.allocated) (hord : (st.rep h).request.Ordered)
include hs hal hord

theorem attempted_within
    (hzero : (st.rep h).request.maxSwThreads ≤ 0 → (st.rep h).concurrency.sum = 0)
    (hpend : (st.plainFulfillment h).pendingConstraintsIndices = [])
    (hsat : (st.rep h).adjustedMinSwThreads.toNat ≤ (st.plainFulfillment h).numSatisfiable) :
    ((st.attempted P h initiator first).rep h).Within := by
  have hplain := hs.plain h hal
  have hb := searchBounds hplain.word hord
  rw [(attempted_rep hs hal).1]
  by_cases hpos : 0 < (st.rep h).request.maxSwThreads
  · obtain ⟨d, hdec, hd, hlo, hhi, _⟩ := calculateUpdates_accepted
      (unconstrainedSnapshot_covered hs.placed) (hb.lo_le_hi.trans_lt hb.hi_lt)
      hb.lo_le_hi hb.hi_lt (plainFulfillment_of_pos hpos) hpend hsat
    have hlo' := hb.lo_eq
    have hhi' := hb.hi_eq
    rw [updated_requestedChange hplain hdec]
    constructor
    · change (st.rep h).adjustedMinSwThreads ≤ (([d.toAssign].sum : Nat) : Int)
      rw [sum_singleton]
      omega
    · change (([d.toAssign].sum : Nat) : Int) ≤ (st.rep h).adjustedMaxSwThreads
      rw [sum_singleton]
      omega
  · -- the maximum is zero: nothing is searched and nothing is given
    have hsum := hzero (by omega)
    obtain ⟨hmin, hmax⟩ := hord
    have hnone : st.plainFulfillment h = {} := if_neg hpos
    have hkept : ((st.rep h).updated (requestedChange {} h)).concurrency.sum = 0 := by
      rw [← hsum]
      unfold updated requestedChange
      cases (st.rep h).concurrency <;> rfl
    rw [hnone]
    constructor
    · rw [hkept]
      change (st.rep h).adjustedMinSwThreads ≤ 0
      unfold adjustedMinSwThreads
      omega
    · rw [hkept]
      change 0 ≤ (st.rep h).adjustedMaxSwThreads
      unfold adjustedMaxSwThreads
      omega

/-- The search succeeds if the minimum is covered by what it sees. -/
theorem accepted_of_cover (hcover : (st.rep h).adjustedMinSwThreads.toNat ≤
      (st.unconstrainedSnapshot h).immediatelyAvailable +
        (st.unconstrainedSnapshot h).numNegotiable) :
    (st.plainFulfillment h).pendingConstraintsIndices = [] ∧
      (st.rep h).adjustedMinSwThreads.toNat ≤ (st.plainFulfillment h).numSatisfiable := by
  have hb := searchBounds (hs.plain h hal).word hord
  by_cases hpos : 0 < (st.rep h).request.maxSwThreads
  · apply calculateUpdates_accepts (unconstrainedSnapshot_covered hs.placed)
      (hb.lo_le_hi.trans_lt hb.hi_lt) hb.lo_le_hi hb.hi_lt (plainFulfillment_of_pos hpos)
    · rw [unconstrainedSnapshot_eq hs.placed]
      exact hb.requested_min_le
    · rw [unconstrainedSnapshot_eq hs.placed]
      exact hb.lo_le_hi.trans hb.le_requested_max
    · exact hcover
  · have hnone : st.plainFulfillment h = {} := if_neg hpos
    have hle := hord.min_le_max
    have hzero : (st.rep h).adjustedMinSwThreads.toNat = 0 := by
      unfold adjustedMinSwThreads
      omega
    rw [hnone, hzero]
    exact ⟨rfl, Nat.le_refl 0⟩

theorem accepted_of_within (hw : (st.rep h).Within) :
    (st.plainFulfillment h).pendingConstraintsIndices = [] ∧
      (st.rep h).adjustedMinSwThreads.toNat ≤ (st.plainFulfillment h).numSatisfiable := by
  apply accepted_of_cover hs hal hord
  have := hw.min_le
  rw [unconstrainedSnapshot_immediate hs hal]
  omega

end

theorem Permit.Within.eq_zero {p : Permit} (hw : p.Within) (hmax : p.request.maxSwThreads ≤ 0) :
    p.concurrency.sum = 0 := by
  have hle := hw.le_max
  unfold adjustedMaxSwThreads at hle
  omega

/-- A permit within its bounds gets more without active permits giving anything. -/
theorem attempted_rep_active_of_within (hs : Settled P out st) (hal : h ∈ st.allocated)
    (hord : (st.rep h).request.Ordered) (hw : (st.rep h).Within) (hk : k ≠ h)
    (hactive : (st.rep k).state = .active) :
    (st.attempted P h initiator first).rep k = st.rep k := by
  have hb := searchBounds (hs.plain h hal).word hord
  obtain ⟨hpend, hsat⟩ := accepted_of_within hs hal hord hw
  by_cases hpos : 0 < (st.rep h).request.maxSwThreads
  · obtain ⟨d, hdec, hd, henough⟩ := calculateUpdates_idleFirst
      (unconstrainedSnapshot_covered hs.placed) (hb.lo_le_hi.trans_lt hb.hi_lt)
      (plainFulfillment_of_pos hpos) hpend hsat (by
        have := hw.min_le
        have := hb.lo_eq
        rw [unconstrainedSnapshot_immediate hs hal]
        omega)
    exact attempted_rep_active hs hdec hd henough hk hactive
  · have hnone : st.plainFulfillment h = {} := if_neg hpos
    unfold attempted
    apply apply_rep_of_notMem
    rw [hnone]
    intro hmem
    exact hk (mem_singleton.mp hmem)

/-! ## Permits that yield -/

namespace Permit.Yields

variable {p p' : Permit}

theorem request_eq (hy : p.Yields p') : p'.request = p.request := by
  cases hy <;> rfl

theorem state_eq (hy : p.Yields p') (hrunning : p'.state ≠ .inactive) : p'.state = p.state := by
  cases hy with
  | untouched | gives n _ _ _ _ => rfl
  | deactivated n _ _ _ _ => exact absurd rfl hrunning

theorem eq_of_not_running (hy : p.Yields p') (hidle : p.state ≠ .idle) (hactive : p.state ≠ .active) :
    p' = p := by
  cases hy with
  | untouched => rfl
  | gives n hrunning _ _ _ | deactivated n hrunning _ _ _ =>
    exact (hrunning.elim hidle hactive).elim

/-- Unless it is deactivated, a permit within its bounds stays within them. -/
theorem within (hy : p.Yields p') (hp : p.Plain) (hord : p.request.Ordered) (hw : p.Within)
    (hrunning : p'.state ≠ .inactive) : p'.Within := by
  cases hy with
  | untouched => exact hw
  | deactivated n _ _ _ _ => exact absurd rfl hrunning
  | gives n _ _ hn hkeeps =>
    have hle := hw.le_max
    have hmaxlt := hp.word.max_lt
    have hmax : p.adjustedMaxSwThreads = max 0 (p.request.maxSwThreads - p.inherited) := rfl
    have hlt : p.concurrency.sum < 2147483648 := by omega
    have hn' := hn.trans (negotiablePart_le (by omega))
    have hinherited : p.inherited ≤ 1 := Bool.toNat_le _
    unfold shallDeactivate at hkeeps
    simp only [Option.getD_none, hp.reduced_eq (by omega) hn', getD_cons_zero,
      Bool.or_eq_false_iff, decide_eq_false_iff_not, Nat.not_lt, minimumFor] at hkeeps
    rw [Word.add_of_lt (by omega)] at hkeeps
    have hmin := hkeeps.2
    have hword : (Word.ofInt p.request.minSwThreads : Int) = p.request.minSwThreads :=
      Word.ofInt_of_lt hord.min_nonneg (by have := hord.min_le_max; omega)
    have hadjusted : p.adjustedMinSwThreads = max 0 (p.request.minSwThreads - p.inherited) := rfl
    constructor
    · change p.adjustedMinSwThreads ≤ (([p.concurrency.sum - n].sum : Nat) : Int)
      rw [sum_singleton]
      omega
    · change (([p.concurrency.sum - n].sum : Nat) : Int) ≤ p.adjustedMaxSwThreads
      rw [sum_singleton]
      omega

end Permit.Yields

end OneTbb.Tcm
