import OneTbb.Library.Transition
import OneTbb.ResourceLimiter.Invariant

/-!
# No request is stranded

Every state of every run satisfies the invariant. When no thread is left, each
request that is still registered waits for a limiter that has handles, and fair
limiters have then notified a request that comes before it; so there is none.
-/

namespace OneTbb.ResourceLimiter

open List Relation Option Job Nat

open Selection

variable {H : Type} {g : Graph H} {s : Shared H} {slots : Slots} {xs ys : List (Thread H)}
  {std : OrderAlgorithms higherPriorityFirst}

/-! ## Delivering a notification -/

/-- A thread that knows a part to be asked for keeps the counter ahead. -/
theorem Job.ahead_pos {j : Job H} {n i : Nat} (h : j.knows i = .asked) : 1 ≤ j.ahead n := by
  cases j <;> simp only [knows, ahead] at h ⊢ <;> first | omega | skip
  all_goals (repeat' split at h) <;> cases h

/-- The slots after the part at `i` of the request `k` has been notified. -/
structure Delivered (slots slots' : Slots) (k : Nat × Nat) (i : Nat) : Prop where
  before : slots k i = .offered
  after : slots' k i = .notified
  others : ∀ k' i', ¬ (k' = k ∧ i' = i) → slots' k' i' = slots k' i'

variable {slots' : Slots} {k : Nat × Nat} {i : Nat}

section

variable (h : Delivered slots slots' k i)
include h

theorem Delivered.openCount {n : Nat} (hi : i < n) :
    openCount slots k n = openCount slots' k n + 1 := by
  have hcount := countP_range_except (p := fun a => (slots k a).isOpen)
    (q := fun a => (slots' k a).isOpen) hi fun a _ ha => by
      rw [h.others k a fun he => ha he.2]
  simp only [h.before, h.after, Slot.isOpen, Bool.toNat_false, Bool.toNat_true] at hcount
  exact hcount

theorem Delivered.dataOk {n a : Nat} {d : RequestData H} (hi : i < n) (hd : DataOk slots k n a d) :
    DataOk slots' k n a { d with notifyCounter := d.notifyCounter + -1 } where
  counter := by
    have h₁ := hd.counter
    have h₂ := h.openCount hi
    change d.notifyCounter + -1 = _
    omega
  handles := by
    intro i' hi' hheld
    apply hd.handles i' hi'
    by_cases he : i' = i
    · subst he
      rw [h.after] at hheld
      cases hheld
    · rwa [h.others k i' fun h => he h.2] at hheld

theorem Delivered.isAsked {i' : Nat}
    (ha : (slots k i').isAsked = true) : (slots' k i').isAsked = true := by
  by_cases he : i' = i
  · subst he
    rw [h.after]
    rfl
  · rwa [h.others k i' fun h => he h.2]

/-- A thread that runs the request does not notice the delivery. -/
theorem Delivered.jobOk {j : Job H} (hj : JobOk g s slots j)
    (hk : j.ref.key = k) (hi : i < g.size j.ref.node) :
    JobOk g (s.addCounter k (-1)) slots' j ∧ j.knows i = .asked := by
  subst hk
  have hasked : j.knows i = .asked := by
    have hi' := hj.knows i hi
    cases hkn : j.knows i with
    | asked => rfl
    | exactly τ =>
      rw [hkn, h.before] at hi'
      obtain ⟨rfl, ho⟩ := hi'
      cases ho
  obtain ⟨d, hd, hid, hok⟩ := hj.data
  refine ⟨⟨hj.bounds, fun i' hi' => ?_, _, addCounter_data hd _, hid, h.dataOk hi hok⟩, hasked⟩
  by_cases he : i' = i
  · subst he
    rw [hasked, h.after]
    rfl
  · rw [h.others _ i' fun h => he h.2]
    exact hj.knows i' hi'

end

theorem owners_spawned (xs ys : List (Thread H)) (ns : List ConsumerData) (job : Option (Job H))
    (ts : List (Thread H)) :
    (owners (xs ++ (⟨ns, job⟩ :: ts) ++ ys)).Perm
      (owners ts ++ owners (xs ++ ⟨ns, job⟩ :: ys)) := by
  simp only [owners_append, owners_cons, append_assoc]
  generalize owners xs = a
  generalize (job.map fun j => j.ref.key).toList = b
  rw [← append_assoc a b, ← append_assoc a b, ← append_assoc (a ++ b),
    ← append_assoc (owners ts)]
  exact perm_append_comm.append_right _

/-- What a thread has to deliver does not change what the threads run. -/
theorem owners_notifications (ns ns' : List ConsumerData) (job : Option (Job H)) :
    owners (xs ++ ⟨ns, job⟩ :: ys) = owners (xs ++ ⟨ns', job⟩ :: ys) := by
  simp only [owners_append, owners_cons]

/-- A waiting request counts the parts that are still open. -/
theorem Waiting.counter_delivered {d : RequestData H} (hwait : Waiting g slots k d)
    (h : Delivered slots slots' k i) (hi : i < g.size k.1) :
    d.notifyCounter = openCount slots' k (g.size k.1) + 1 := by
  have hcounter := hwait.data.counter
  have hopen := h.openCount hi
  omega

theorem addCounter_id {c : Int} {k' : Nat × Nat} {d' : RequestData H}
    (hd' : (s.addCounter k c).requests k' = some d') :
    ∃ d, s.requests k' = some d ∧ d'.id = d.id := by
  by_cases hkey : k' = k
  · subst hkey
    cases hd : s.requests k' with
    | none => simp [Shared.addCounter, Shared.modify, hd] at hd'
    | some d =>
      cases (addCounter_data hd c).symm.trans hd'
      exact ⟨d, rfl, rfl⟩
  · exact ⟨d', (addCounter_other hkey c).symm.trans hd', rfl⟩

section

variable {x : ConsumerData} {rest : List ConsumerData} {job : Option (Job H)} {d : RequestData H}

/-- A task is spawned by the delivery that finds the counter at one. -/
theorem mem_spawned {t : Thread H} (ht : t ∈ s.spawned x) :
    t = ⟨[], some (.task x.ref)⟩ ∧
      (s.requests x.ref.key).map RequestData.notifyCounter = some 1 := by
  unfold Shared.spawned at ht
  split at ht
  case isTrue hone => exact ⟨mem_singleton.mp ht, hone⟩
  case isFalse => cases ht

theorem deliveries_spawned : (deliveries (xs ++ (⟨rest, job⟩ :: s.spawned x) ++ ys)).Perm
    (rest ++ deliveries (xs ++ ys)) := by
  have hnil : (s.spawned x).flatMap Thread.notifications = [] := by
    rw [flatMap_eq_nil_iff]
    intro t ht
    rw [(mem_spawned ht).1]
  have := deliveries_perm xs (⟨rest, job⟩ : Thread H) ys
  simpa [deliveries, hnil] using this

theorem Entry.delivered (hentry : Entry g s slots .offered x) :
    Delivered slots (slots.move x .notified []) x.ref.key x.consumer.2 := by
  refine ⟨hentry.slot, Slots.move_self _ _, fun k' i' hne => ?_⟩
  simp [Slots.move, hne]

variable (h : Inv g ⟨s, xs ++ ⟨x :: rest, job⟩ :: ys⟩ slots)
include h

theorem Inv.offered : Entry g s slots .offered x :=
  (h.tracked.offered x).mp (by simp [deliveries])

/-- No thread runs a request whose last notification is to be delivered. -/
theorem Inv.not_owner (hd : s.requests x.ref.key = some d) (hone : d.notifyCounter = 1) :
    x.ref.key ∉ owners (xs ++ (⟨x :: rest, job⟩ : Thread H) :: ys) := by
  intro hmem
  obtain ⟨t, ht, hkey⟩ := mem_filterMap.mp hmem
  obtain ⟨j, hj, hkey⟩ := map_eq_some_iff.mp hkey
  have hjob := h.phases.jobs t ht j hj
  have hnode : x.consumer.1 = j.ref.node := (congrArg Prod.fst hkey).symm
  have hi : x.consumer.2 < g.size j.ref.node := hnode ▸ h.offered.index
  obtain ⟨_, hasked⟩ := h.offered.delivered.jobOk hjob hkey hi
  obtain ⟨d', hd', _, hok⟩ := hjob.data
  rw [hkey, show s.requests _ = _ from hd] at hd'
  cases hd'
  have hcounter := hok.counter
  have hopen := h.offered.delivered.openCount hi
  have hahead := ahead_pos (n := g.size j.ref.node) hasked
  rw [hkey] at hcounter
  omega

/-- The threads there were do not notice the delivery. -/
theorem Inv.jobOk_delivered {t : Thread H} {j : Job H} (ht : t ∈ xs ++ ⟨x :: rest, job⟩ :: ys)
    (hj : t.job = some j) :
    JobOk g (s.addCounter x.ref.key (-1)) (slots.move x .notified []) j := by
  have hjob := h.phases.jobs t ht j hj
  by_cases hkey : j.ref.key = x.ref.key
  · have hnode : x.consumer.1 = j.ref.node := (congrArg Prod.fst hkey).symm
    exact (h.offered.delivered.jobOk hjob hkey (hnode ▸ h.offered.index)).1
  · refine hjob.later (addCounter_other hkey _) fun i' => .inl ?_
    exact h.offered.delivered.others _ _ fun he => hkey he.1

/-- The task of the last delivery finds all parts notified. -/
theorem Inv.jobOk_spawned (hd : s.requests x.ref.key = some d) (hid : d.id = x.ref.id)
    (hone : d.notifyCounter = 1) :
    JobOk g (s.addCounter x.ref.key (-1)) (slots.move x .notified []) (.task x.ref) := by
  have hdel := h.offered.delivered
  have hwait := h.phases.waiting _ d hd (h.not_owner hd hone)
  have hcounter := hwait.counter_delivered hdel h.offered.index
  have hzero : openCount (slots.move x .notified []) x.ref.key (g.size x.ref.key.1) = 0 := by omega
  refine ⟨trivial, fun i' hi' => ?_, _, addCounter_data hd _, hid, ?_⟩
  · exact ⟨notified_of_openCount hzero hi' (hdel.isAsked (hwait.asked i' hi')), rfl⟩
  · exact hdel.dataOk h.offered.index hwait.data

theorem Inv.nodup_delivered (hd : s.requests x.ref.key = some d) :
    (owners (xs ++ (⟨rest, job⟩ :: s.spawned x) ++ ys)).Nodup := by
  rw [(owners_spawned xs ys rest job _).nodup_iff, owners_notifications rest (x :: rest) job]
  unfold Shared.spawned
  split
  case isTrue hone =>
    rw [hd, map_some, some.injEq] at hone
    exact nodup_cons.mpr ⟨h.not_owner hd hone, h.phases.nodup⟩
  case isFalse => exact h.phases.nodup

/-- A request that no thread runs after the delivery still has an open part. -/
theorem Inv.waiting_delivered (hd : s.requests x.ref.key = some d) {k' : Nat × Nat}
    {d' : RequestData H} (hd' : (s.addCounter x.ref.key (-1)).requests k' = some d')
    (hk' : k' ∉ owners (xs ++ (⟨rest, job⟩ :: s.spawned x) ++ ys)) :
    Waiting g (slots.move x .notified []) k' d' := by
  have hdel := h.offered.delivered
  rw [(owners_spawned xs ys rest job _).mem_iff, mem_append, not_or,
    owners_notifications rest (x :: rest) job] at hk'
  obtain ⟨hnone, hnot⟩ := hk'
  by_cases hkey : k' = x.ref.key
  · subst hkey
    cases (addCounter_data hd _).symm.trans hd'
    have hwait := h.phases.waiting _ d hd hnot
    have hone : d.notifyCounter ≠ 1 := by
      intro hone
      apply hnone
      simp [Shared.spawned, hd, hone, owners, ref]
    have hcounter := hwait.counter_delivered hdel h.offered.index
    refine ⟨fun i' hi' => hdel.isAsked (hwait.asked i' hi'),
      hdel.dataOk h.offered.index hwait.data, ?_⟩
    omega
  · have hold : s.requests k' = some d' := (addCounter_other hkey _).symm.trans hd'
    refine (h.phases.waiting k' d' hold hnot).later fun i' => .inl ?_
    exact hdel.others _ _ fun he => hkey he.1

theorem Inv.deliver : ∃ slots', Inv g ⟨s.addCounter x.ref.key (-1),
    xs ++ (⟨rest, job⟩ :: s.spawned x) ++ ys⟩ slots' := by
  obtain ⟨d, hd, hid⟩ := h.offered.registered
  have m := Moves.deliver h.tracked (registered_addCounter x.ref.key (-1)) rfl
    (@deliveries_spawned H s xs ys x rest job)
  refine ⟨_, h.tracked.move m, ⟨fun t ht j hj => ?_, h.nodup_delivered hd,
    fun _ _ => h.waiting_delivered hd⟩, h.fair, h.pools_move m ?_, ?_, ?_⟩
  · simp only [mem_append, mem_cons] at ht
    obtain (ht | rfl | ht) | ht := ht
    · exact h.jobOk_delivered (mem_append_left _ ht) hj
    · exact h.jobOk_delivered (mem_append_right _ mem_cons_self) hj
    · obtain ⟨rfl, hone⟩ := mem_spawned ht
      cases hj
      rw [hd, map_some, some.injEq] at hone
      exact h.jobOk_spawned hd hid hone
    · exact h.jobOk_delivered (mem_append_right _ (mem_cons_of_mem _ ht)) hj
  · intro p hp
    refine .inr ⟨hp, fun _ => ?_⟩
    rw [h.offered.slot]
    rfl
  · intro k' d' hd'
    obtain ⟨d, hd, hid⟩ := addCounter_id hd'
    rw [hid]
    exact h.ids k' d hd
  · obtain ⟨keys, hkeys⟩ := h.finite
    refine ⟨keys, fun k' d' hd' => ?_⟩
    obtain ⟨d, hd, -⟩ := addCounter_id hd'
    exact hkeys k' d hd

end

/-! ## The invariant along a run -/

theorem Inv.initial (g : Graph H) : Inv g g.start fun _ _ => .absent where
  tracked := by
    constructor
    case pending =>
      intro p x
      exact ⟨nofun, fun ⟨h, _⟩ => by cases h.slot⟩
    case notified =>
      intro p x
      refine ⟨nofun, ?_⟩
      rintro ⟨h | h, _⟩
      · cases h.slot
      · cases h.slot
    case offered =>
      intro x
      exact ⟨nofun, fun h => by cases h.slot⟩
    case nodupPending => exact fun _ => nodup_nil
    case nodupNotified => exact fun _ => nodup_nil
    case nodupOffered => exact nodup_nil
  phases := ⟨nofun, nodup_nil, nofun⟩
  fair := fun _ => nofun
  pools := fun p hp => absurd hp (g.handles_ne_nil p)
  ids := nofun
  finite := ⟨[], nofun⟩

theorem Inv.work {j : Job H} (h : Inv g ⟨s, xs ++ ⟨[], some j⟩ :: ys⟩ slots) :
    ∃ slots', Inv g ⟨(perform g std s j).1,
      xs ++ [⟨(perform g std s j).2.1, (perform g std s j).2.2⟩] ++ ys⟩ slots' := by
  have hbounds := h.jobOk.bounds
  cases j with
  | requesting r i =>
    have hle : i ≤ g.size r.node := hbounds
    simp only [perform]
    split
    · rename_i hi
      refine h.request (.requesting r (i + 1)) rfl hi (by simp [knows])
        (by simp [knows]) ?_ hi (by simp only [ahead, ref]; omega)
      intro i' _ hne τ hτ
      by_cases hlt : i' < i
      · simpa [knows, hlt, lt_succ_of_lt hlt] using hτ
      · have hge : ¬ i' < i + 1 := by omega
        simpa [knows, hlt, hge] using hτ
    · rename_i hi
      refine ⟨slots, h.selfRef ?_ ?_⟩
      · intro i' hi'
        have hlt : i' < i := lt_of_lt_of_le hi' (not_lt.mp hi)
        simp [knows, hlt]
      · simp only [ahead, ref]
        omega
  | task r | starting r => exact ⟨slots, h.count 1 rfl (zero_le _) (fun _ _ _ hτ => hτ) rfl⟩
  | acquiring r i =>
    simp only [perform]
    split
    · rename_i hi
      exact ⟨slots, h.count 1 rfl hi (fun _ _ _ hτ => hτ) rfl⟩
    · rename_i hi
      refine ⟨slots, h.count (-1) rfl trivial (fun i' hi' τ hτ => ?_) rfl⟩
      have hlt : i' < i := lt_of_lt_of_le hi' (not_lt.mp hi)
      simpa [knows, hlt] using hτ
  | asking r i => exact h.acquire
  | granted r i handle => exact h.store
  | denied r i =>
    refine ⟨slots, h.count (-1) rfl ⟨Nat.le_refl i, hbounds⟩ (fun i' _ τ hτ => ?_) rfl⟩
    by_cases hlt : i' < i
    · simpa [knows, hlt] using hτ
    · simpa [knows, hlt] using hτ
  | returning r d j =>
    cases j with
    | zero =>
      refine ⟨slots, h.count 1 rfl hbounds.2 (fun i' _ τ hτ => ?_) rfl⟩
      simpa [knows] using hτ
    | succ j =>
      have hj : j < d := hbounds.1
      refine h.release (.reasking r d j) rfl (lt_trans hj hbounds.2)
        (by simp [knows]) (by simp [knows]) ?_ ⟨hj, hbounds.2⟩ rfl
      intro i' _ hne τ hτ
      by_cases hlt : i' < j
      · simpa [knows, hlt, lt_succ_of_lt hlt] using hτ
      · have hge : ¬ i' < j + 1 := by omega
        simpa [knows, hlt, hge, hne] using hτ
  | reasking r d j => exact ⟨slots, h.count 1 rfl hbounds (fun _ _ _ hτ => hτ) rfl⟩
  | rerequesting r d j =>
    obtain ⟨hj, hd⟩ := hbounds
    refine h.request (.returning r d j) rfl (lt_trans hj hd) (by simp [knows])
      (by simp [knows, hj]) ?_ ⟨le_of_lt hj, hd⟩ rfl
    intro i' _ hne τ hτ
    simpa [knows, hne] using hτ
  | rerequestingDenied r d =>
    refine h.request (.selfRef r) rfl hbounds (by simp [knows]) rfl ?_ trivial rfl
    intro i' _ hne τ hτ
    by_cases hlt : i' < d
    · simpa [knows, hlt] using hτ
    · simp only [knows, hlt, hne, if_false] at hτ
      obtain ⟨rfl, _⟩ := hτ
      rfl
  | selfRef r => exact ⟨slots, h.selfRef (fun _ _ => rfl) rfl⟩
  | body r =>
    refine ⟨slots, h.goOn rfl le_rfl (fun i' hi' τ hτ => ?_) rfl⟩
    change i' < g.size r.node at hi'
    simpa [knows, hi'] using hτ
  | finishing r j =>
    cases j with
    | zero =>
      exact ⟨slots, h.remove fun i' _ => by simp [knows]⟩
    | succ j =>
      refine h.release (.finishing r j) rfl hbounds (by simp [knows])
        (by simp [knows]) ?_ (le_of_succ_le hbounds) rfl
      intro i' _ hne τ hτ
      by_cases hlt : i' < j
      · simpa [knows, hlt, lt_succ_of_lt hlt] using hτ
      · have hge : ¬ i' < j + 1 := by omega
        simpa [knows, hlt, hge] using hτ
  | withdrawing r i =>
    simp only [perform]
    split
    · rename_i hi
      refine h.withdraw (.withdrawing r (i + 1)) rfl hi (by simp [knows])
        (by simp [knows]) ?_ hi rfl
      intro i' _ hne τ hτ
      by_cases hlt : i' < i
      · simpa [knows, hlt, lt_succ_of_lt hlt] using hτ
      · have hge : ¬ i' < i + 1 := by omega
        simpa [knows, hlt, hge] using hτ
    · rename_i hi
      refine ⟨slots, h.remove fun i' hi' => ?_⟩
      have hlt : i' < i := lt_of_lt_of_le hi' (not_lt.mp hi)
      simp [knows, hlt]

theorem Inv.step {st st' : State H} (h : Inv g st slots) (hstep : Step g std st st') :
    ∃ slots', Inv g st' slots' := by
  obtain ⟨s, threads⟩ := st
  cases hstep with
  | message node time => exact h.message node time
  | notify ht =>
    obtain rfl := ht
    exact h.deliver
  | work ht =>
    obtain rfl := ht
    exact h.work
  | cancel ht =>
    obtain rfl := ht
    exact ⟨slots, h.goOn rfl (zero_le _) (fun _ _ _ hτ => hτ) rfl⟩
  | finish ht =>
    obtain rfl := ht
    exact ⟨slots, h.finish⟩

theorem Inv.run {st : State H} (hrun : ReflTransGen (Step g std) g.start st) :
    ∃ slots, Inv g st slots :=
  Transition.run_preserves (P := fun st => ∃ slots, Inv g st slots)
    (fun _ _ ⟨_, h⟩ hstep => h.step hstep) hrun ⟨_, Inv.initial g⟩

/-! ## No request is stranded -/

/-- No notification is to be delivered and no thread has anything to do: neither
a request, an acquisition nor a body is in progress. -/
def State.Quiescent (st : State H) : Prop :=
  ∀ t ∈ st.threads, t.notifications = [] ∧ t.job = none

theorem State.Quiescent.deliveries {st : State H} (h : st.Quiescent) :
    ResourceLimiter.deliveries st.threads = [] := by
  apply flatMap_eq_nil_iff.mpr
  intro t ht
  exact (h t ht).1

theorem State.Quiescent.owners {st : State H} (h : st.Quiescent) :
    ResourceLimiter.owners st.threads = [] := by
  apply filterMap_eq_nil_iff.mpr
  intro t ht
  rw [(h t ht).2]
  rfl

section Quiescent

variable {st : State H} (h : Inv g st slots) (hq : st.Quiescent)

include h hq

theorem Inv.waiting_of_quiescent {r : Ref} (hr : Registered st.shared r) :
    ∃ d, Waiting g slots r.key d := by
  obtain ⟨d, hd, _⟩ := hr
  refine ⟨d, h.phases.waiting _ d hd ?_⟩
  rw [hq.owners]
  exact not_mem_nil

/-- No handle is held. -/
theorem Inv.pool_of_quiescent (p : Nat) : (st.shared.limiters p).resourceHandles ≠ [] := by
  intro hp
  obtain ⟨x, σ, hσ, hentry, _⟩ := h.pools p hp
  obtain ⟨d, hwait⟩ := h.waiting_of_quiescent hq hentry.registered
  have hasked := hwait.asked _ hentry.index
  rw [hentry.slot] at hasked
  cases σ <;> simp_all [Slot.hasHandle, Slot.isAsked]

theorem Inv.pending_of_quiescent {r : Ref} (hr : Registered st.shared r) :
    ∃ i, Entry g st.shared slots .pending (r.data i) := by
  obtain ⟨d, hwait⟩ := h.waiting_of_quiescent hq hr
  obtain ⟨i, hi, hopen⟩ := countP_pos_iff.mp hwait.open_pos
  have hi' : i < g.size r.node := mem_range.mp hi
  refine ⟨i, hr, hi', ?_⟩
  change slots r.key i = .pending
  cases hs : slots r.key i with
  | pending => rfl
  | offered =>
    have : r.data i ∈ deliveries st.threads :=
      (h.tracked.offered _).mpr ⟨hr, hi', hs⟩
    rw [hq.deliveries] at this
    cases this
  | _ => simp [hs, Slot.isOpen] at hopen

theorem Inv.exists_before {r : Ref} (hr : Registered st.shared r) :
    ∃ r', Registered st.shared r' ∧ r'.id.lt r.id = true := by
  obtain ⟨i, hentry⟩ := h.pending_of_quiescent hq hr
  have hmem := (h.tracked.pending _ _).mpr ⟨hentry, rfl⟩
  have hpos : 0 < (st.shared.limiters (g.limiterOf (r.data i).consumer)).resourceHandles.length :=
    length_pos_iff.mpr (h.pool_of_quiescent hq _)
  have hcount := lt_of_lt_of_le hpos (h.fair _ _ hmem)
  obtain ⟨y, hy, hbefore⟩ := countP_pos_iff.mp hcount
  refine ⟨y.ref, ?_, hbefore⟩
  obtain ⟨hy | hy, _⟩ := (h.tracked.notified _ y).mp hy
  · exact hy.registered
  · exact hy.registered

end Quiescent

/-- In a run of any number of limiters and nodes, with messages at any time and
threads that interleave in any way, no request is registered in a state in which
nothing is in flight. -/
theorem resourceLimiter_noStrandedRequest (g : Graph H)
    (std : OrderAlgorithms higherPriorityFirst) {st : State H}
    (run : ReflTransGen (Step g std) g.start st) (hquiescent : st.Quiescent) :
    ∀ k, st.shared.requests k = none := by
  obtain ⟨slots, h⟩ := Inv.run run
  obtain ⟨keys, hkeys⟩ := h.finite
  -- the registered requests in a list; one of them has none before it
  let refs := keys.filterMap fun k => (st.shared.requests k).map fun d => (⟨k.1, d.id⟩ : Ref)
  have hrefs : ∀ r, r ∈ refs ↔ Registered st.shared r := by
    intro r
    simp only [refs, mem_filterMap, map_eq_some_iff]
    constructor
    · rintro ⟨k, _, d, hd, rfl⟩
      refine ⟨d, ?_, rfl⟩
      rw [show (⟨k.1, d.id⟩ : Ref).key = k from Prod.ext rfl (h.ids k d hd).1]
      exact hd
    · rintro ⟨d, hd, hid⟩
      exact ⟨r.key, hkeys _ d hd, d, hd, by rw [hid]; rfl⟩
  have hnil : refs = [] := by
    by_contra hne
    have hids : refs.map Ref.id ≠ [] := by simpa using hne
    obtain ⟨m, hm, hfirst⟩ := exists_first strictWeak_lt hids
    obtain ⟨r, hr, rfl⟩ := mem_map.mp hm
    obtain ⟨r', hr', hlt⟩ := h.exists_before hquiescent ((hrefs r).mp hr)
    have := hfirst r'.id (mem_map_of_mem ((hrefs r').mpr hr'))
    rw [hlt] at this
    cases this
  intro k
  cases hd : st.shared.requests k with
  | none => rfl
  | some d =>
    have hreg : Registered st.shared ⟨k.1, d.id⟩ := by
      refine ⟨d, ?_, rfl⟩
      rw [show (⟨k.1, d.id⟩ : Ref).key = k from Prod.ext rfl (h.ids k d hd).1]
      exact hd
    have := (hrefs _).mpr hreg
    rw [hnil] at this
    cases this

/-- One limiter with one handle. -/
def oneHandle : Graph Nat where
  handles := fun _ => [0]
  handles_ne_nil := by simp
  consumers := fun _ => [0]
  priority := fun _ => 0

/-- Insertion sort as the ordering algorithms. -/
def bySorting : OrderAlgorithms higherPriorityFirst :=
  insertionAlgorithms higherPriorityFirst strictWeak_higherPriorityFirst

/-- States reached with one limiter and one handle. -/
abbrev OneHandleRun := ReflTransGen (Step oneHandle bySorting) oneHandle.start

/-- The only thread works on its job. -/
theorem OneHandleRun.work {s : Shared Nat} {j : Job Nat} (h : OneHandleRun ⟨s, [⟨[], some j⟩]⟩) :
    OneHandleRun ⟨(perform oneHandle bySorting s j).1,
      [⟨(perform oneHandle bySorting s j).2.1, (perform oneHandle bySorting s j).2.2⟩]⟩ :=
  h.tail (@Step.work _ oneHandle bySorting _ [] [] _ rfl)

/-- The first message is notified and asks for the handle. -/
def firstAsking : { st : State Nat // OneHandleRun st } :=
  have formed : OneHandleRun _ := .single (@Step.message _ oneHandle bySorting oneHandle.start 0 0)
  have notified := formed.work.tail (@Step.notify _ oneHandle bySorting _ [] [] _ _ _ rfl)
  ⟨_, (OneHandleRun.work notified).work.work⟩

/-- It has the handle, and its body runs. -/
def firstRunning : { st : State Nat // OneHandleRun st } :=
  have acquired : OneHandleRun _ := OneHandleRun.work firstAsking.2
  ⟨_, acquired.work.work⟩

/-- The second message waits for the handle the first one is given. -/
theorem resourceLimiter_noStrandedRequest_waiting :
    ∃ st, ReflTransGen (Step oneHandle bySorting) oneHandle.start st ∧ st.Quiescent ∧
      st.shared.counters 0 = 2 ∧ ∀ k, st.shared.requests k = none := by
  have h₁ := firstRunning.2
  have h₂ := h₁.tail (@Step.message _ oneHandle bySorting _ 0 1)
  have h₃ := h₂.tail (@Step.work _ oneHandle bySorting _ [_] [] _ rfl)
  have h₄ := h₃.tail (@Step.work _ oneHandle bySorting _ [_] [] _ rfl)
  have h₅ := h₄.tail (@Step.finish _ oneHandle bySorting _ [_] [] rfl)
  have h₆ := OneHandleRun.work h₅
  have h₇ := h₆.work
  have h₈ := h₇.tail (@Step.notify _ oneHandle bySorting _ [] [] _ _ _ rfl)
  have h₉ := h₈.tail (@Step.work _ oneHandle bySorting _ [] [_] _ rfl)
  have h₁₀ := h₉.tail (@Step.finish _ oneHandle bySorting _ [] [_] rfl)
  have h₁₁ := OneHandleRun.work h₁₀
  have h₁₂ := h₁₁.work
  have h₁₃ := h₁₂.work
  have h₁₄ := h₁₃.work
  have h₁₅ := h₁₄.work
  have h₁₆ := h₁₅.work
  have h₁₇ := h₁₆.work
  have h₁₈ := h₁₇.work
  have h₁₉ := h₁₈.tail (@Step.finish _ oneHandle bySorting _ [] [] rfl)
  exact ⟨_, h₁₉, nofun, rfl, resourceLimiter_noStrandedRequest oneHandle bySorting h₁₉ nofun⟩

/-! ## The notifications a request waits for -/

section Notifications

variable {st : State H} {r : Ref}

/-- The limiter of part `i` has not notified the request since it was last asked: it has
the part pending, or the notification is still to be delivered. -/
def State.Outstanding (g : Graph H) (st : State H) (r : Ref) (i : Nat) : Prop :=
  r.data i ∈ (st.shared.limiters (g.limiterOf (r.node, i))).pending ∨
    r.data i ∈ deliveries st.threads

instance : DecidablePred (st.Outstanding g r) := fun _ => inferInstanceAs (Decidable (_ ∨ _))

/-- The references the thread that works on a request holds itself. -/
def State.ownReferences (g : Graph H) (st : State H) (r : Ref) : Nat :=
  (((st.threads.filterMap Thread.job).find? (·.ref = r)).map (·.ahead (g.size r.node))).getD 0

theorem Inv.outstanding_iff (h : Inv g st slots) (hr : Registered st.shared r)
    (hi : i < g.size r.node) : st.Outstanding g r i ↔ (slots r.key i).isOpen = true := by
  have hpending := h.tracked.pending (g.limiterOf (r.node, i)) (r.data i)
  have hoffered := h.tracked.offered (r.data i)
  unfold State.Outstanding
  rw [hpending, hoffered]
  constructor
  · rintro (⟨hentry, _⟩ | hentry)
    · rw [show slots r.key i = .pending from hentry.slot]
      rfl
    · rw [show slots r.key i = .offered from hentry.slot]
      rfl
  · intro hopen
    cases hs : slots r.key i with
    | pending => exact .inl ⟨⟨hr, hi, hs⟩, rfl⟩
    | offered => exact .inr ⟨hr, hi, hs⟩
    | _ => simp [hs, Slot.isOpen] at hopen

/-- The counter is the number of the references the thread holds and of the
notifications that are outstanding. -/
theorem Inv.counter (h : Inv g st slots) (hr : Registered st.shared r) :
    ∃ d, st.shared.requests r.key = some d ∧ d.notifyCounter = (st.ownReferences g r +
      (range (g.size r.node)).countP (st.Outstanding g r) : Nat) := by
  have hopen : (range (g.size r.node)).countP (st.Outstanding g r) =
      openCount slots r.key (g.size r.node) := by
    apply countP_congr
    intro i hi
    rw [decide_eq_true_iff]
    exact h.outstanding_iff hr (mem_range.mp hi)
  rw [hopen]
  unfold State.ownReferences
  cases hfind : (st.threads.filterMap Thread.job).find? (·.ref = r) with
  | some j =>
    -- a thread works on the request
    have href := List.find?_some hfind
    obtain rfl : j.ref = r := of_decide_eq_true href
    obtain ⟨t, ht, hj⟩ := mem_filterMap.mp (mem_of_find?_eq_some hfind)
    obtain ⟨d, hd, _, hdata⟩ := (h.phases.jobs t ht j hj).data
    exact ⟨d, hd, hdata.counter.trans (Int.natCast_add _ _).symm⟩
  | none =>
    obtain ⟨d, hd, hid⟩ := hr
    have howner : r.key ∉ owners st.threads := by
      intro hmem
      obtain ⟨t, ht, hkey⟩ := mem_filterMap.mp hmem
      obtain ⟨j, hj, hkey⟩ := map_eq_some_iff.mp hkey
      have href := (h.phases.jobs t ht j hj).registered.unique ⟨d, hd, hid⟩ hkey
      have hnone := List.find?_eq_none.mp hfind j (mem_filterMap.mpr ⟨t, ht, hj⟩)
      exact hnone (decide_eq_true href)
    have hdata := (h.phases.waiting r.key d hd howner).data
    exact ⟨d, hd, hdata.counter.trans (Int.natCast_add _ _).symm⟩

end Notifications

/-- In every state of a run `acquire` is called for a request its limiter has notified only,
notifications are for registered requests, and the counter of a request is not negative; it
is zero exactly if every limiter has notified the request since it was last asked and no
thread holds a reference of its own. -/
theorem resourceLimitedBody_acquiresNotified (g : Graph H)
    (std : OrderAlgorithms higherPriorityFirst) {st : State H}
    (run : ReflTransGen (Step g std) g.start st) :
    (∀ t ∈ st.threads, ∀ r i, t.job = some (.asking r i) →
      r.data i ∈ (st.shared.limiters (g.limiterOf (r.node, i))).notified) ∧
    (∀ t ∈ st.threads, (∀ x ∈ t.notifications, Registered st.shared x.ref) ∧
      ∀ j, t.job = some j → Registered st.shared j.ref) ∧
    ∀ r, Registered st.shared r → ∃ d, st.shared.requests r.key = some d ∧
      d.notifyCounter = (st.ownReferences g r +
        (range (g.size r.node)).countP (st.Outstanding g r) : Nat) ∧
      (d.notifyCounter = 0 ↔ st.ownReferences g r = 0 ∧
        ∀ i < g.size r.node, ¬ st.Outstanding g r i) := by
  obtain ⟨slots, h⟩ := Inv.run run
  refine ⟨?_, ?_, ?_⟩
  · intro t ht r i hjob
    have hok := h.phases.jobs t ht _ hjob
    have hslot := (hok.slot (i := i) (τ := .notified) hok.bounds (by simp [knows])).1
    exact (h.tracked.notified _ _).mpr ⟨.inr ⟨hok.registered, hok.bounds, hslot⟩, rfl⟩
  · intro t ht
    constructor
    · intro x hx
      exact ((h.tracked.offered x).mp (mem_flatMap.mpr ⟨t, ht, hx⟩)).registered
    · intro j hj
      exact (h.phases.jobs t ht j hj).registered
  · intro r hr
    obtain ⟨d, hd, hcounter⟩ := h.counter hr
    refine ⟨d, hd, hcounter, ?_⟩
    rw [hcounter, Int.natCast_eq_zero, Nat.add_eq_zero_iff, countP_eq_zero]
    simp only [mem_range, decide_eq_true_eq]

/-- A request that is about to acquire its handle. -/
theorem resourceLimitedBody_acquiresNotified_asking :
    ∃ st, ReflTransGen (Step oneHandle bySorting) oneHandle.start st ∧
      (∃ t ∈ st.threads, ∃ r i, t.job = some (.asking r i) ∧
        r.data i ∈ (st.shared.limiters (oneHandle.limiterOf (r.node, i))).notified) := by
  have run := firstAsking.2
  have hasking := (resourceLimitedBody_acquiresNotified oneHandle bySorting run).1
  exact ⟨_, run, _, mem_cons_self, _, _, rfl, hasking _ mem_cons_self _ _ rfl⟩

end OneTbb.ResourceLimiter
