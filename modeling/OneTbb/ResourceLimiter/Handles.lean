import Mathlib.Data.List.Perm.Subperm
import OneTbb.ResourceLimiter.Run

/-!
# Where the handles of a limiter are

A handle is in the pool of its limiter, stored in a request, or with the thread that has just
acquired it for a request. The handles outside the pools are a list of holdings, one for each
consumer of a request that owns a handle.
-/

namespace OneTbb.ResourceLimiter

open List Function Relation OneHandleRun Job Limiter

open Selection

variable {H : Type} {g : Graph H} {s s' : Shared H} {xs ys : List (Thread H)} {j : Job H}

/-- A handle, with the request and the consumer it is for. -/
structure Holding (H : Type) where
  key : Nat × Nat
  index : Nat
  handle : H

def Holding.place (o : Holding H) : (Nat × Nat) × Nat := (o.key, o.index)

/-- The limiter of the handle. -/
def Graph.limiterOfHolding (g : Graph H) (o : Holding H) : Nat := g.limiterOf (o.key.1, o.index)

/-- The handles of a limiter that are outside its pool. -/
def handlesOf (g : Graph H) (os : List (Holding H)) (p : Nat) : List H :=
  (os.filter fun o => g.limiterOfHolding o = p).map Holding.handle

theorem handlesOf_cons (o : Holding H) (os : List (Holding H)) (p : Nat) :
    handlesOf g (o :: os) p =
      if g.limiterOfHolding o = p then o.handle :: handlesOf g os p else handlesOf g os p := by
  unfold handlesOf
  rw [filter_cons]
  by_cases hp : g.limiterOfHolding o = p
  · rw [if_pos hp, if_pos (decide_eq_true hp), map_cons]
  · rw [if_neg hp, if_neg (by rw [decide_eq_true_iff]; exact hp)]

theorem handlesOf_perm {os os' : List (Holding H)} (h : os.Perm os') (p : Nat) :
    (handlesOf g os p).Perm (handlesOf g os' p) :=
  (h.filter _).map _

/-- The request owns the handle. -/
def State.Owns (g : Graph H) (st : State H) (o : Holding H) : Prop :=
  o.index < g.size o.key.1 ∧
    ((∃ d, st.shared.requests o.key = some d ∧ d.handles o.index = some o.handle) ∨
      ∃ t ∈ st.threads, ∃ r : Ref, t.job = some (.granted r o.index o.handle) ∧ r.key = o.key)

/-- Whether the handle of consumer `i` is in the request that a job runs. -/
def Job.holds : Job H → Nat → Bool
  | .acquiring _ i₀, i | .asking _ i₀, i | .granted _ i₀ _, i | .denied _ i₀, i => decide (i < i₀)
  | .returning _ _ j, i | .reasking _ _ j, i | .rerequesting _ _ j, i => decide (i < j)
  | .body _, _ => true
  | .finishing _ j, i => decide (i < j)
  | .requesting _ _, _ | .task _, _ | .starting _, _ | .rerequestingDenied _ _, _
  | .selfRef _, _ | .withdrawing _ _, _ => false

/-- The handle a thread has acquired and not yet stored. -/
def Job.carries : Job H → Option (Nat × H)
  | .granted _ i handle => some (i, handle)
  | _ => none

/-- The handles are conserved, with the list of those outside the pools. -/
structure Conserved (g : Graph H) (st : State H) (os : List (Holding H)) : Prop where
  stored : ∀ t ∈ st.threads, ∀ j, t.job = some j → ∀ d, st.shared.requests j.ref.key = some d →
    ∀ i, i < g.size j.ref.node → (d.handles i).isSome = j.holds i
  waiting : ∀ k d, st.shared.requests k = some d → k ∉ owners st.threads →
    ∀ i, i < g.size k.1 → d.handles i = none
  owned : ∀ o, o ∈ os ↔ st.Owns g o
  nodup : (os.map Holding.place).Nodup
  pools : ∀ p, ((st.shared.limiters p).resourceHandles ++ handlesOf g os p).Perm (g.handles p)

theorem Conserved.initial (g : Graph H) : Conserved g g.start [] where
  stored := nofun
  waiting := nofun
  owned o := by
    refine ⟨nofun, ?_⟩
    rintro ⟨-, ⟨d, hd, -⟩ | ⟨t, ht, -⟩⟩
    · cases hd
    · cases ht
  nodup := nodup_nil
  pools p := by
    rw [handlesOf, filter_nil, map_nil, append_nil]
    exact Perm.refl _

theorem carries_eq_some {i : Nat} {h : H} : j.carries = some (i, h) ↔ j = .granted j.ref i h := by
  cases j with
  | granted r i' h' =>
    simp only [carries, ref, Option.some.injEq, Prod.mk.injEq, granted.injEq,
      true_and]
  | _ => simp [carries]

/-- What the request of a job owns. -/
def JobOwns (s : Shared H) (k : Nat × Nat) (job : Option (Job H)) (i : Nat) (h : H) : Prop :=
  (∃ d, s.requests k = some d ∧ d.handles i = some h) ∨ job.bind carries = some (i, h)

theorem Phases.unique {slots : Slots} {t : Thread H} (hp : Phases g s (xs ++ t :: ys) slots)
    (ht : t.job = some j) : ∀ u ∈ xs ++ ys, ∀ i, u.job = some i → i.ref.key ≠ j.ref.key := by
  intro u hu i hi he
  have hnodup := hp.nodup
  rw [owners_append, owners_cons, ht] at hnodup
  have hfresh : j.ref.key ∉ owners xs ++ owners ys :=
    (nodup_cons.mp (perm_middle.nodup_iff.mp hnodup)).1
  apply hfresh
  rw [← he, ← owners_append]
  exact mem_filterMap.mpr ⟨u, hu, by simp [hi]⟩

/-- What the request of a job owns, and what the others own, in terms of the threads. -/
theorem owns_iff {ns : List ConsumerData} {job : Option (Job H)} {k : Nat × Nat}
    (hunique : ∀ u ∈ xs ++ ys, ∀ i, u.job = some i → i.ref.key ≠ k)
    (hjob : ∀ i, job = some i → i.ref.key = k) (o : Holding H) :
    (⟨s, xs ++ ⟨ns, job⟩ :: ys⟩ : State H).Owns g o ↔ o.index < g.size o.key.1 ∧
      if o.key = k then JobOwns s k job o.index o.handle
      else (⟨s, xs ++ ys⟩ : State H).Owns g o := by
  unfold State.Owns
  by_cases hk : o.key = k
  · rw [if_pos hk, ← hk]
    refine and_congr_right fun _ => or_congr Iff.rfl ?_
    constructor
    · rintro ⟨t, ht, r, hr, hrk⟩
      have hmem : t ∈ xs ++ ys ∨ t = ⟨ns, job⟩ := by
        simp only [mem_append, mem_cons] at ht ⊢
        tauto
      rcases hmem with hmem | rfl
      · exact absurd (hrk.trans hk) (hunique t hmem _ hr)
      · dsimp only at hr
        rw [hr]
        rfl
    · intro hcarries
      obtain ⟨i, hi, hc⟩ := Option.bind_eq_some_iff.mp hcarries
      refine ⟨⟨ns, job⟩, by simp, i.ref, ?_, (hjob i hi).trans hk.symm⟩
      rw [hi, ← carries_eq_some.mp hc]
  · rw [if_neg hk]
    refine and_congr_right fun hindex => ?_
    simp only [hindex, true_and]
    refine or_congr Iff.rfl ?_
    constructor
    · rintro ⟨t, ht, r, hr, hrk⟩
      refine ⟨t, ?_, r, hr, hrk⟩
      have hmem : t ∈ xs ++ ys ∨ t = ⟨ns, job⟩ := by
        simp only [mem_append, mem_cons] at ht ⊢
        tauto
      rcases hmem with hmem | rfl
      · exact hmem
      · exact absurd (hrk.symm.trans (hjob _ hr)) hk
    · rintro ⟨t, ht, hrest⟩
      refine ⟨t, ?_, hrest⟩
      simp only [mem_append, mem_cons] at ht ⊢
      tauto

variable {slots : Slots} {os os' : List (Holding H)} {next : Option (Job H)}
  {ns : List ConsumerData}

section

variable (h : Conserved g ⟨s, xs ++ ⟨[], some j⟩ :: ys⟩ os)
  (hp : Phases g s (xs ++ ⟨[], some j⟩ :: ys) slots)
include h hp

theorem Conserved.mem_iff {i : Nat} (hi : i < g.size j.ref.node)
    {handle : H} : ⟨j.ref.key, i, handle⟩ ∈ os ↔ JobOwns s j.ref.key (some j) i handle := by
  rw [h.owned, owns_iff (hp.unique rfl) (by rintro _ ⟨⟩; rfl), if_pos rfl]
  exact and_iff_right hi

/-- A thread changes its own request only, and goes on with it or lets go of it. -/
theorem Conserved.own (hreq : ∀ k, k ≠ j.ref.key → s'.requests k = s.requests k)
    (hgo : ∀ j', next = some j' → j'.ref = j.ref ∧ ∀ d, s'.requests j.ref.key = some d →
      ∀ i, i < g.size j.ref.node → (d.handles i).isSome = j'.holds i)
    (hstop : next = none → ∀ d, s'.requests j.ref.key = some d →
      ∀ i, i < g.size j.ref.node → d.handles i = none)
    (hself : ∀ i handle, ⟨j.ref.key, i, handle⟩ ∈ os' ↔ i < g.size j.ref.node ∧
      JobOwns s' j.ref.key next i handle)
    (hothers : ∀ o : Holding H, o.key ≠ j.ref.key → (o ∈ os' ↔ o ∈ os))
    (hnodup : (os'.map Holding.place).Nodup)
    (hpools : ∀ p, ((s'.limiters p).resourceHandles ++ handlesOf g os' p).Perm (g.handles p)) :
    Conserved g ⟨s', xs ++ [⟨ns, next⟩] ++ ys⟩ os' := by
  have hunique := hp.unique rfl
  have hsplit : xs ++ [⟨ns, next⟩] ++ ys = xs ++ (⟨ns, next⟩ : Thread H) :: ys := by simp
  have hnext : ∀ i, next = some i → i.ref.key = j.ref.key :=
    fun i hi => congrArg Ref.key (hgo i hi).1
  constructor
  case stored =>
    intro t ht i hi d hd
    have hmem : t ∈ xs ++ ys ∨ t = ⟨ns, next⟩ := by
      simp only [mem_append, mem_singleton] at ht ⊢
      tauto
    rcases hmem with hmem | rfl
    · rw [hreq _ (hunique t hmem i hi)] at hd
      refine h.stored t ?_ i hi d hd
      simp only [mem_append, mem_cons] at hmem ⊢
      tauto
    · obtain ⟨href, hstored⟩ := hgo i hi
      rw [href] at hd ⊢
      exact hstored d hd
  case waiting =>
    intro k d hd hk i hi
    rw [hsplit, owners_append, owners_cons, mem_append, mem_append, not_or, not_or] at hk
    by_cases he : k = j.ref.key
    · subst he
      cases hn : next with
      | none => exact hstop hn d hd i hi
      | some i' =>
        refine absurd ?_ hk.2.1
        rw [hn]
        exact mem_singleton.mpr (hnext i' hn).symm
    · rw [hreq k he] at hd
      refine h.waiting k d hd ?_ i hi
      rw [owners_append, owners_cons, mem_append, mem_append, not_or, not_or]
      exact ⟨hk.1, fun hin => he (mem_singleton.mp hin), hk.2.2⟩
  case owned =>
    intro o
    rw [hsplit, owns_iff hunique hnext]
    by_cases hk : o.key = j.ref.key
    · obtain ⟨key, i, handle⟩ := o
      subst hk
      rw [if_pos rfl]
      exact hself i handle
    · have hold := h.owned o
      rw [owns_iff hunique (by rintro _ ⟨⟩; rfl), if_neg hk] at hold
      rw [if_neg hk, hothers o hk, hold]
      refine and_congr_right fun hindex => ?_
      unfold State.Owns
      rw [hreq o.key hk]
  case nodup => exact hnodup
  case pools => exact hpools

/-- A thread that moves no handle. -/
theorem Conserved.keep (hreq : ∀ k, k ≠ j.ref.key → s'.requests k = s.requests k)
    (hhandles : (s'.requests j.ref.key).map RequestData.handles =
      (s.requests j.ref.key).map RequestData.handles)
    (hlimiters : ∀ p, (s'.limiters p).resourceHandles = (s.limiters p).resourceHandles)
    (hold : j.carries = none) (hnew : next.bind carries = none)
    (hgo : ∀ j', next = some j' → j'.ref = j.ref ∧
      ∀ i, i < g.size j.ref.node → j'.holds i = j.holds i)
    (hstop : next = none → ∀ i, i < g.size j.ref.node → j.holds i = false) :
    Conserved g ⟨s', xs ++ [⟨ns, next⟩] ++ ys⟩ os := by
  have hstored := h.stored ⟨[], some j⟩ (by simp) j rfl
  have hdata : ∀ d, s'.requests j.ref.key = some d →
      ∃ d₀, s.requests j.ref.key = some d₀ ∧ d₀.handles = d.handles := by
    intro d hd
    rw [hd] at hhandles
    exact Option.map_eq_some_iff.mp hhandles.symm
  refine h.own hp hreq (fun j' hj' => ⟨(hgo j' hj').1, fun d hd i hi => ?_⟩)
    (fun hn d hd i hi => ?_) (fun i handle => ?_) (fun _ _ => Iff.rfl) h.nodup (fun p => ?_)
  · obtain ⟨d₀, hd₀, heq⟩ := hdata d hd
    rw [← heq, hstored d₀ hd₀ i hi, (hgo j' hj').2 i hi]
  · obtain ⟨d₀, hd₀, heq⟩ := hdata d hd
    have hnone := hstored d₀ hd₀ i hi
    rw [hstop hn i hi, heq] at hnone
    exact Option.isSome_eq_false_iff.mp hnone |> Option.isNone_iff_eq_none.mp
  · rw [h.owned, owns_iff (hp.unique rfl) (by rintro _ ⟨⟩; rfl), if_pos rfl]
    refine and_congr_right fun _ => ?_
    unfold JobOwns
    rw [hnew, Option.bind_some, hold]
    have hsame : ∀ (t t' : Shared H), (t.requests j.ref.key).map RequestData.handles =
        (t'.requests j.ref.key).map RequestData.handles →
        (∃ d, t.requests j.ref.key = some d ∧ d.handles i = some handle) →
        ∃ d, t'.requests j.ref.key = some d ∧ d.handles i = some handle := by
      rintro t t' he ⟨d, hd, hi⟩
      rw [hd] at he
      obtain ⟨d', hd', heq⟩ := Option.map_eq_some_iff.mp he.symm
      exact ⟨d', hd', by rw [heq]; exact hi⟩
    exact or_congr_left ⟨hsame s s' hhandles.symm, hsame s' s hhandles⟩
  · rw [hlimiters p]
    exact h.pools p

end

/-! ## The operations on the limiters -/

variable {std : OrderAlgorithms higherPriorityFirst} {r : Ref} {i : Nat}

theorem Limiter.extractHandle_handles (l : Limiter H) :
    l.extractHandle.2.toList ++ l.extractHandle.1.resourceHandles = l.resourceHandles := by
  unfold extractHandle
  split
  case h_1 he => rfl
  case h_2 handle rest he => exact he.symm

theorem Limiter.acquire_handles (l : Limiter H) (x : ConsumerData) :
    (l.acquire std x).2.toList ++ (l.acquire std x).1.resourceHandles = l.resourceHandles := by
  unfold acquire
  dsimp only
  split
  case isTrue => rfl
  case isFalse =>
    split
    case isTrue =>
      split
      case isTrue => rfl
      case isFalse => rw [extractHandle_handles]
    case isFalse => rw [extractHandle_handles]

theorem Limiter.withdraw_handles (l : Limiter H) (x : ConsumerData) :
    (l.withdraw std x).1.resourceHandles = l.resourceHandles := by
  unfold withdraw
  split
  case isTrue => exact (notifyPending_spec std _).handles
  case isFalse => rfl

theorem setLimiter_handles {p : Nat} {l : Limiter H} {handles : List H}
    (hl : l.resourceHandles = handles) (p' : Nat) :
    ((s.setLimiter p l).limiters p').resourceHandles =
      if p' = p then handles else (s.limiters p').resourceHandles := by
  change (update s.limiters p l p').resourceHandles = _
  split
  case isTrue hp => rw [hp, update_self, hl]
  case isFalse hp => rw [update_of_ne hp]

theorem requestFrom_handles (s : Shared H) (r : Ref) (i p : Nat) :
    (((s.requestFrom g std r i).1).limiters p).resourceHandles =
      (s.limiters p).resourceHandles := by
  have hspec := (s.limiters (g.limiterOf (r.node, i))).request_spec std (r.data i)
  refine (setLimiter_handles hspec.handles p).trans ?_
  split
  case isTrue hp => rw [hp]
  case isFalse => rfl

theorem withdrawFrom_handles (s : Shared H) (r : Ref) (i p : Nat) :
    (((s.withdrawFrom g std r i).1).limiters p).resourceHandles =
      (s.limiters p).resourceHandles := by
  refine (setLimiter_handles (withdraw_handles _ _) p).trans ?_
  split
  case isTrue hp => rw [hp]
  case isFalse => rfl

theorem Conserved.acquire (h : Conserved g ⟨s, xs ++ ⟨[], some (.asking r i)⟩ :: ys⟩ os)
    (hp : Phases g s (xs ++ ⟨[], some (.asking r i)⟩ :: ys) slots) (hi : i < g.size r.node) :
    ∃ os', Conserved g ⟨(perform g std s (.asking r i)).1,
      xs ++ [⟨(perform g std s (.asking r i)).2.1, (perform g std s (.asking r i)).2.2⟩] ++ ys⟩
      os' := by
  have hhandles := @Limiter.acquire_handles _ std (s.limiters (g.limiterOf (r.node, i))) (r.data i)
  have hstored := h.stored ⟨[], some (.asking r i)⟩ (by simp) _ rfl
  simp only [perform, Shared.acquireFrom]
  generalize (s.limiters (g.limiterOf (r.node, i))).acquire std (r.data i) = result at hhandles ⊢
  obtain ⟨l, handle⟩ := result
  cases handle with
  | none =>
    refine ⟨os, h.keep hp (fun _ _ => rfl) rfl (fun p => ?_) rfl rfl ?_ (by rintro ⟨⟩)⟩
    · rw [setLimiter_handles rfl]
      split
      case isTrue he =>
        rw [he]
        exact hhandles
      case isFalse => rfl
    · rintro _ ⟨⟩
      exact ⟨rfl, fun _ _ => rfl⟩
  | some handle =>
    have hmem : ∀ {i' handle'}, i' < g.size r.node → (⟨r.key, i', handle'⟩ ∈ os ↔
        ∃ d, s.requests r.key = some d ∧ d.handles i' = some handle') := by
      intro i' handle' hi'
      exact (h.mem_iff hp hi').trans (or_iff_left (by rintro ⟨⟩))
    have hfresh : (r.key, i) ∉ os.map Holding.place := by
      intro hin
      obtain ⟨⟨k, i', handle'⟩, ho, hplace⟩ := mem_map.mp hin
      cases hplace
      obtain ⟨d, hd, hsome⟩ := (hmem hi).mp ho
      have hnone := hstored d hd i' hi
      rw [hsome] at hnone
      simp [holds] at hnone
    refine ⟨⟨r.key, i, handle⟩ :: os, h.own hp (fun _ _ => rfl) ?_ (by rintro ⟨⟩)
      (fun i' handle' => ?_) (fun o ho => ?_) (nodup_cons.mpr ⟨hfresh, h.nodup⟩) fun p => ?_⟩
    · rintro _ ⟨⟩
      exact ⟨rfl, hstored⟩
    · have hcarried : ((⟨r.key, i', handle'⟩ : Holding H) = ⟨r.key, i, handle⟩) ↔
          (some (i, handle) = some (i', handle')) := by
        simp only [Holding.mk.injEq, true_and, Option.some.injEq, Prod.mk.injEq]
        exact ⟨fun he => ⟨he.1.symm, he.2.symm⟩, fun he => ⟨he.1.symm, he.2.symm⟩⟩
      refine (mem_cons.trans (or_congr hcarried Iff.rfl)).trans ?_
      constructor
      · rintro (he | hin)
        · cases he
          exact ⟨hi, .inr rfl⟩
        · have hi' : i' < g.size r.node := ((h.owned _).mp hin).1
          exact ⟨hi', .inl ((hmem hi').mp hin)⟩
      · rintro ⟨hi', hstored' | he⟩
        · exact .inr ((hmem hi').mpr hstored')
        · exact .inl he
    · refine ⟨fun hin => (mem_cons.mp hin).resolve_left ?_, mem_cons_of_mem _⟩
      rintro rfl
      exact ho rfl
    · rw [setLimiter_handles rfl, handlesOf_cons]
      refine Perm.trans ?_ (h.pools p)
      by_cases hpool : p = g.limiterOf (r.node, i)
      · have hsame : g.limiterOfHolding ⟨r.key, i, handle⟩ = p := hpool.symm
        rw [if_pos hpool, if_pos hsame, hpool, ← hhandles]
        exact perm_middle
      · have hne : ¬ g.limiterOfHolding ⟨r.key, i, handle⟩ = p := fun he => hpool he.symm
        rw [if_neg hpool, if_neg hne]

theorem Conserved.store {handle : H}
    (h : Conserved g ⟨s, xs ++ ⟨[], some (.granted r i handle)⟩ :: ys⟩ os)
    (hp : Phases g s (xs ++ ⟨[], some (.granted r i handle)⟩ :: ys) slots)
    (hi : i < g.size r.node) {d : RequestData H} (hd : s.requests r.key = some d) :
    Conserved g ⟨(s.addCounter r.key (-1)).setHandle r.key i (some handle),
      xs ++ [⟨[], some (.acquiring r (i + 1))⟩] ++ ys⟩ os := by
  have hstored := h.stored ⟨[], some (.granted r i handle)⟩ (by simp) _ rfl d hd
  have hdata : ((s.addCounter r.key (-1)).setHandle r.key i (some handle)).requests r.key =
      some { d with
        notifyCounter := d.notifyCounter + -1
        handles := update d.handles i (some handle) } := by
    simp [Shared.setHandle, Shared.addCounter, Shared.modify, hd]
  have hempty : d.handles i = none := by
    have hnone := hstored i hi
    simp only [holds, lt_irrefl, decide_false] at hnone
    exact Option.isNone_iff_eq_none.mp (Option.isSome_eq_false_iff.mp hnone)
  refine h.own hp (fun k hk => ?_) ?_ (by rintro ⟨⟩) (fun i' handle' => ?_) (fun _ _ => Iff.rfl)
    h.nodup
    h.pools
  · exact (update_of_ne hk _ _).trans (addCounter_other hk _)
  · rintro _ ⟨⟩
    refine ⟨rfl, fun d' hd' i' hi' => ?_⟩
    cases hdata.symm.trans hd'
    by_cases he : i' = i
    · subst he
      simp [holds]
    · have hold := hstored i' hi'
      dsimp only
      rw [update_of_ne he, hold]
      simp only [holds, decide_eq_decide]
      omega
  · rw [h.owned, owns_iff (hp.unique rfl) (by rintro _ ⟨⟩; rfl), if_pos rfl]
    refine and_congr_right fun hi' => ?_
    change (∃ d', s.requests r.key = some d' ∧ _) ∨ some (i, handle) = _ ↔
      (∃ d', ((s.addCounter r.key (-1)).setHandle r.key i (some handle)).requests r.key = some d' ∧
        _) ∨ none = _
    rw [hdata, hd]
    by_cases he : i' = i
    · subst he
      simp [hempty]
    · simp [he, Ne.symm he]

theorem exists_remove {o : Holding H} (hnodup : (os.map Holding.place).Nodup) (ho : o ∈ os) :
    ∃ os', os.Perm (o :: os') ∧ (os'.map Holding.place).Nodup ∧
      ∀ o', o' ∈ os' ↔ o' ∈ os ∧ o'.place ≠ o.place := by
  obtain ⟨before, after, rfl⟩ := append_of_mem ho
  have hperm : (before ++ o :: after).Perm (o :: (before ++ after)) := perm_middle
  obtain ⟨hfresh, hnodup'⟩ := nodup_cons.mp ((hperm.map Holding.place).nodup_iff.mp hnodup)
  refine ⟨before ++ after, hperm, hnodup', fun o' => ?_⟩
  rw [hperm.mem_iff, mem_cons]
  constructor
  · intro hin
    refine ⟨.inr hin, fun he => hfresh ?_⟩
    rw [← he]
    exact mem_map_of_mem hin
  · rintro ⟨rfl | hin, hne⟩
    · exact absurd rfl hne
    · exact hin

section

variable (h : Conserved g ⟨s, xs ++ ⟨[], some j⟩ :: ys⟩ os)
  (hp : Phases g s (xs ++ ⟨[], some j⟩ :: ys) slots)
include h hp

theorem Conserved.release (j' : Job H) (href : j'.ref = j.ref)
    (hi : i < g.size j.ref.node) {d : RequestData H} (hd : s.requests j.ref.key = some d)
    (hold : j.carries = none) (hnew : j'.carries = none) (hheld : j.holds i = true)
    (hfree : j'.holds i = false) (hothers : ∀ i', i' ≠ i → j'.holds i' = j.holds i') :
    ∃ os', Conserved g ⟨(s.releaseTo g std j.ref i).1,
      xs ++ [⟨(s.releaseTo g std j.ref i).2, some j'⟩] ++ ys⟩ os' := by
  have hstored := h.stored ⟨[], some j⟩ (by simp) j rfl d hd
  obtain ⟨handle, hhandle⟩ := Option.isSome_iff_exists.mp ((hstored i hi).trans hheld)
  have hspec := (s.limiters (g.limiterOf (j.ref.node, i))).release_spec std handle
  have hbind : (s.requests j.ref.key).bind (·.handles i) = some handle := by
    rw [hd]
    exact hhandle
  simp only [Shared.releaseTo, hbind]
  generalize (s.limiters (g.limiterOf (j.ref.node, i))).release std handle = result at hspec ⊢
  obtain ⟨l, moved⟩ := result
  have hdata : ((s.setLimiter (g.limiterOf (j.ref.node, i)) l).setHandle j.ref.key i none).requests
      j.ref.key = some { d with handles := update d.handles i none } := by
    simp [Shared.setHandle, Shared.modify, Shared.setLimiter, hd]
  have hmem : ∀ {i' handle'}, i' < g.size j.ref.node → (⟨j.ref.key, i', handle'⟩ ∈ os ↔
      d.handles i' = some handle') := by
    intro i' handle' hi'
    rw [h.mem_iff hp hi', JobOwns, hd, Option.bind_some, hold]
    simp
  have ho : (⟨j.ref.key, i, handle⟩ : Holding H) ∈ os := (hmem hi).mpr hhandle
  obtain ⟨os', hperm, hnodup, hmem'⟩ := exists_remove h.nodup ho
  refine ⟨os', h.own hp (fun k hk => ?_) ?_ (by rintro ⟨⟩) (fun i' handle' => ?_)
    (fun o hne => ?_) hnodup
    fun p => ?_⟩
  · exact update_of_ne hk _ _
  · rintro _ ⟨⟩
    refine ⟨href, fun d' hd' i' hi' => ?_⟩
    cases hdata.symm.trans hd'
    by_cases he : i' = i
    · subst he
      simp [hfree]
    · dsimp only
      rw [update_of_ne he, hstored i' hi', hothers i' he]
  · rw [hmem', JobOwns, hdata, Option.bind_some, hnew]
    simp only [Option.some.injEq, exists_eq_left', reduceCtorEq, or_false]
    by_cases he : i' = i
    · subst he
      simp [Holding.place]
    · rw [update_of_ne he]
      have hplace : (⟨j.ref.key, i', handle'⟩ : Holding H).place ≠
          (⟨j.ref.key, i, handle⟩ : Holding H).place := fun hsame => he (Prod.mk.inj hsame).2
      constructor
      · rintro ⟨hin, -⟩
        have hi' : i' < g.size j.ref.node := ((h.owned _).mp hin).1
        exact ⟨hi', (hmem hi').mp hin⟩
      · rintro ⟨hi', hsome⟩
        exact ⟨(hmem hi').mpr hsome, hplace⟩
  · rw [hmem']
    refine and_iff_left fun he => hne ?_
    exact congrArg Prod.fst he
  · refine Perm.trans ?_ (h.pools p)
    refine Perm.trans ?_ ((handlesOf_perm hperm.symm p).append_left _)
    have hpool := setLimiter_handles (s := s) (p := g.limiterOf (j.ref.node, i)) hspec.handles p
    refine Perm.trans (Perm.of_eq (congrArg (· ++ handlesOf g os' p) hpool)) ?_
    rw [handlesOf_cons]
    by_cases he : p = g.limiterOf (j.ref.node, i)
    · have hsame : g.limiterOfHolding ⟨j.ref.key, i, handle⟩ = p := he.symm
      rw [if_pos he, if_pos hsame, he]
      exact perm_middle.symm
    · have hne : ¬ g.limiterOfHolding ⟨j.ref.key, i, handle⟩ = p := fun hsame => he hsame.symm
      rw [if_neg he, if_neg hne]

/-- The request is removed when it owns no handle. -/
theorem Conserved.remove (hcarries : j.carries = none)
    (hholds : ∀ i, i < g.size j.ref.node → j.holds i = false) :
    Conserved g ⟨s.removeRequest j.ref, xs ++ [⟨[], none⟩] ++ ys⟩ os := by
  have hself : (s.removeRequest j.ref).requests j.ref.key = none := update_self _ _ _
  refine h.own hp (fun k hk => update_of_ne hk _ _) nofun (fun _ d hd => ?_)
    (fun i handle => ?_) (fun _ _ => Iff.rfl) h.nodup h.pools
  · rw [hself] at hd
    cases hd
  · constructor
    · intro hin
      have hi : i < g.size j.ref.node := ((h.owned _).mp hin).1
      rcases (h.mem_iff hp hi).mp hin with ⟨d, hd, hsome⟩ | hcarried
      · have hnone := h.stored ⟨[], some j⟩ (by simp) j rfl d hd i hi
        rw [hsome, hholds i hi] at hnone
        cases hnone
      · rw [Option.bind_some, hcarries] at hcarried
        cases hcarried
    · rintro ⟨-, ⟨d, hd, -⟩ | hcarried⟩
      · rw [hself] at hd
        cases hd
      · cases hcarried

/-! ## Runs -/

/-- A thread goes on, moves no handle, and leaves the handles of its request where they are. -/
theorem Conserved.goOn {j' : Job H} (href : j'.ref = j.ref) (hreq : s'.requests = s.requests)
    (hlimiters : ∀ p, (s'.limiters p).resourceHandles = (s.limiters p).resourceHandles)
    (hold : j.carries = none) (hnew : j'.carries = none)
    (hholds : ∀ i, i < g.size j.ref.node → j'.holds i = j.holds i) :
    Conserved g ⟨s', xs ++ [⟨ns, some j'⟩] ++ ys⟩ os := by
  refine h.keep hp (fun k _ => congrFun hreq k) (by rw [hreq]) hlimiters hold hnew ?_ nofun
  rintro _ ⟨⟩
  exact ⟨href, hholds⟩

end

theorem addCounter_handles (s : Shared H) (k : Nat × Nat) (c : Int) :
    ((s.addCounter k c).requests k).map RequestData.handles =
      (s.requests k).map RequestData.handles := by
  unfold Shared.addCounter Shared.modify
  dsimp only
  rw [update_self, Option.map_map]
  rfl

section

variable (h : Conserved g ⟨s, xs ++ ⟨[], some j⟩ :: ys⟩ os)
include h

theorem Conserved.count {j' : Job H}
    (hp : Phases g s (xs ++ ⟨[], some j⟩ :: ys) slots) (c : Int) (href : j'.ref = j.ref)
    (hold : j.carries = none) (hnew : j'.carries = none)
    (hholds : ∀ i, i < g.size j.ref.node → j'.holds i = j.holds i) :
    Conserved g ⟨s.addCounter j.ref.key c, xs ++ [⟨[], some j'⟩] ++ ys⟩ os := by
  refine h.keep hp (fun _ hk => addCounter_other hk c) (addCounter_handles s j.ref.key c)
    (fun _ => rfl) hold hnew ?_ nofun
  rintro _ ⟨⟩
  exact ⟨href, hholds⟩

theorem Conserved.selfRef
    (hp : Phases g s (xs ++ ⟨[], some j⟩ :: ys) slots) (hold : j.carries = none)
    (hholds : ∀ i, j.holds i = false) :
    Conserved g ⟨(s.releaseSelfRef j.ref).1,
      xs ++ [⟨(s.releaseSelfRef j.ref).2.1, (s.releaseSelfRef j.ref).2.2⟩] ++ ys⟩ os := by
  unfold Shared.releaseSelfRef
  split
  case isTrue => exact h.count hp (-1) rfl hold rfl fun i _ => (hholds i).symm
  case isFalse =>
    exact h.keep hp (fun _ hk => addCounter_other hk (-1)) (addCounter_handles s j.ref.key (-1))
      (fun _ => rfl) hold rfl nofun fun _ i _ => hholds i

theorem Conserved.work (hinv : Inv g ⟨s, xs ++ ⟨[], some j⟩ :: ys⟩ slots) :
    ∃ os', Conserved g ⟨(perform g std s j).1,
      xs ++ [⟨(perform g std s j).2.1, (perform g std s j).2.2⟩] ++ ys⟩ os' := by
  have hp : Phases g s (xs ++ ⟨[], some j⟩ :: ys) slots := hinv.phases
  have hbounds := hinv.jobOk.bounds
  obtain ⟨d, hd, -, -⟩ := hinv.jobOk.data
  cases j with
  | requesting r i =>
    simp only [perform]
    split
    case isTrue =>
      exact ⟨os, h.goOn hp rfl rfl (requestFrom_handles s r i) rfl rfl fun _ _ => rfl⟩
    case isFalse => exact ⟨os, h.selfRef hp rfl fun _ => rfl⟩
  | task r | starting r => exact ⟨os, h.count hp 1 rfl rfl rfl fun _ _ => rfl⟩
  | acquiring r i =>
    simp only [perform]
    split
    case isTrue => exact ⟨os, h.count hp 1 rfl rfl rfl fun _ _ => rfl⟩
    case isFalse hi =>
      refine ⟨os, h.count hp (-1) rfl rfl rfl fun i' hi' => ?_⟩
      have hlt : i' < i := lt_of_lt_of_le hi' (not_lt.mp hi)
      exact (decide_eq_true hlt).symm
  | asking r i => exact h.acquire hp hbounds
  | granted r i handle => exact ⟨os, h.store hp hbounds hd⟩
  | denied r i => exact ⟨os, h.count hp (-1) rfl rfl rfl fun _ _ => rfl⟩
  | returning r d' j =>
    cases j with
    | zero => exact ⟨os, h.count hp 1 rfl rfl rfl fun _ _ => rfl⟩
    | succ j =>
      refine h.release hp (.reasking r d' j) rfl (lt_trans hbounds.1 hbounds.2) hd rfl rfl
        (by simp [holds]) (by simp [holds]) fun i' hne => ?_
      simp only [holds, decide_eq_decide]
      omega
  | reasking r d' j => exact ⟨os, h.count hp 1 rfl rfl rfl fun _ _ => rfl⟩
  | rerequesting r d' j =>
    exact ⟨os, h.goOn hp rfl rfl (requestFrom_handles s r j) rfl rfl fun _ _ => rfl⟩
  | rerequestingDenied r d' =>
    exact ⟨os, h.goOn hp rfl rfl (requestFrom_handles s r d') rfl rfl fun _ _ => rfl⟩
  | selfRef r => exact ⟨os, h.selfRef hp rfl fun _ => rfl⟩
  | body r =>
    exact ⟨os, h.goOn hp rfl rfl (fun _ => rfl) rfl rfl fun _ hi => decide_eq_true hi⟩
  | finishing r j =>
    cases j with
    | zero => exact ⟨os, h.remove hp rfl fun _ _ => rfl⟩
    | succ j =>
      refine h.release hp (.finishing r j) rfl hbounds hd rfl rfl
        (by simp [holds]) (by simp [holds]) fun i' hne => ?_
      simp only [holds, decide_eq_decide]
      omega
  | withdrawing r i =>
    simp only [perform]
    split
    case isTrue =>
      exact ⟨os, h.goOn hp rfl rfl (withdrawFrom_handles s r i) rfl rfl fun _ _ => rfl⟩
    case isFalse => exact ⟨os, h.remove hp rfl fun _ _ => rfl⟩

end

/-- Requests keep their handles or are new, and the threads that are new own none. -/
theorem Conserved.congr {st st' : State H} (h : Conserved g st os)
    (hregistered : ∀ t ∈ st.threads, ∀ j, t.job = some j → st.shared.requests j.ref.key ≠ none)
    (hlimiters : st'.shared.limiters = st.shared.limiters)
    (hold : ∀ k d, st.shared.requests k = some d →
      ∃ d', st'.shared.requests k = some d' ∧ d'.handles = d.handles)
    (hnew : ∀ k d', st.shared.requests k = none → st'.shared.requests k = some d' →
      ∀ i, d'.handles i = none)
    (hkept : ∀ t ∈ st.threads, ∀ j, t.job = some j → ∃ t' ∈ st'.threads, t'.job = some j)
    (hfresh : ∀ t' ∈ st'.threads, ∀ j, t'.job = some j →
      (∃ t ∈ st.threads, t.job = some j) ∨
        j.carries = none ∧ (∀ i, j.holds i = false) ∧ j.ref.key ∉ owners st.threads) :
    Conserved g st' os := by
  -- a request that is in both states has the same handles
  have hsame : ∀ k d d', st.shared.requests k = some d → st'.shared.requests k = some d' →
      d'.handles = d.handles := by
    intro k d d' hd hd'
    obtain ⟨d'', hd'', heq⟩ := hold k d hd
    cases hd'.symm.trans hd''
    exact heq
  have hidle : ∀ k d', st'.shared.requests k = some d' → k ∉ owners st.threads →
      ∀ i, i < g.size k.1 → d'.handles i = none := by
    intro k d' hd' hk i hi
    cases hd : st.shared.requests k with
    | none => exact hnew k d' hd hd' i
    | some d =>
      rw [hsame k d d' hd hd']
      exact h.waiting k d hd hk i hi
  constructor
  case stored =>
    intro t' ht' j hj d' hd' i hi
    rcases hfresh t' ht' j hj with ⟨t, ht, htj⟩ | ⟨-, hholds, howner⟩
    · obtain ⟨d, hd⟩ := Option.ne_none_iff_exists'.mp (hregistered t ht j htj)
      rw [hsame _ d d' hd hd']
      exact h.stored t ht j htj d hd i hi
    · rw [hidle _ d' hd' howner i hi, hholds i]
      rfl
  case waiting =>
    intro k d' hd' hk
    refine hidle k d' hd' fun hin => hk ?_
    obtain ⟨t, ht, hkey⟩ := mem_filterMap.mp hin
    obtain ⟨j, hj, rfl⟩ := Option.map_eq_some_iff.mp hkey
    obtain ⟨t', ht', hj'⟩ := hkept t ht j hj
    exact mem_filterMap.mpr ⟨t', ht', by rw [hj']; rfl⟩
  case owned =>
    intro o
    rw [h.owned]
    refine and_congr_right fun _ => or_congr ?_ ?_
    · constructor
      · rintro ⟨d, hd, hsome⟩
        obtain ⟨d', hd', heq⟩ := hold _ d hd
        exact ⟨d', hd', by rw [heq]; exact hsome⟩
      · rintro ⟨d', hd', hsome⟩
        cases hd : st.shared.requests o.key with
        | none =>
          rw [hnew _ d' hd hd'] at hsome
          cases hsome
        | some d =>
          rw [hsame _ d d' hd hd'] at hsome
          exact ⟨d, rfl, hsome⟩
    · constructor
      · rintro ⟨t, ht, r, hr, hkey⟩
        obtain ⟨t', ht', hr'⟩ := hkept t ht _ hr
        exact ⟨t', ht', r, hr', hkey⟩
      · rintro ⟨t', ht', r, hr, hkey⟩
        rcases hfresh t' ht' _ hr with ⟨t, ht, htr⟩ | ⟨hcarries, -⟩
        · exact ⟨t, ht, r, htr, hkey⟩
        · cases hcarries
  case nodup => exact h.nodup
  case pools =>
    rw [hlimiters]
    exact h.pools

theorem Inv.requests_ne_none {st : State H} (hinv : Inv g st slots) :
    ∀ t ∈ st.threads, ∀ j, t.job = some j → st.shared.requests j.ref.key ≠ none := by
  intro t ht j hj
  obtain ⟨d, hd, -, -⟩ := (hinv.phases.jobs t ht j hj).data
  rw [hd]
  exact Option.some_ne_none d

theorem Inv.not_mem_owners {st : State H} (hinv : Inv g st slots) {k : Nat × Nat}
    (hk : st.shared.requests k = none) : k ∉ owners st.threads := by
  intro hin
  obtain ⟨t, ht, hkey⟩ := mem_filterMap.mp hin
  obtain ⟨j, hj, rfl⟩ := Option.map_eq_some_iff.mp hkey
  exact hinv.requests_ne_none t ht j hj hk

theorem Conserved.message {st : State H} (h : Conserved g st os) (hinv : Inv g st slots)
    (node : Nat) (time : Int) :
    Conserved g ⟨(st.shared.formRequest g node time).1,
      st.threads ++ [⟨[], some (.requesting (st.shared.formRequest g node time).2 0)⟩]⟩ os := by
  have hfresh : st.shared.requests (node, st.shared.counters node + 1) = none := by
    by_contra hne
    obtain ⟨d, hd⟩ := Option.ne_none_iff_exists'.mp hne
    have hle := (hinv.ids _ d hd).2
    dsimp only at hle
    omega
  have hother : ∀ k, k ≠ (node, st.shared.counters node + 1) →
      (st.shared.formRequest g node time).1.requests k = st.shared.requests k :=
    fun k hk => update_of_ne hk _ _
  have hself : ((st.shared.formRequest g node time).1.requests
      (node, st.shared.counters node + 1)).map RequestData.handles = some fun _ => none := by
    unfold Shared.formRequest
    dsimp only
    rw [update_self]
    rfl
  refine h.congr hinv.requests_ne_none rfl (fun k d hd => ⟨d, ?_, rfl⟩) (fun k d' hd hd' i => ?_)
    (fun t ht j hj => ⟨t, mem_append_left _ ht, hj⟩) fun t' ht' j hj => ?_
  · refine (hother k ?_).trans hd
    rintro rfl
    rw [hfresh] at hd
    cases hd
  · by_cases hk : k = (node, st.shared.counters node + 1)
    · rw [hk] at hd'
      rw [hd'] at hself
      rw [Option.some.inj hself]
    · rw [hother k hk, hd] at hd'
      cases hd'
  · rcases mem_append.mp ht' with ht' | ht'
    · exact .inl ⟨t', ht', hj⟩
    · obtain rfl := mem_singleton.mp ht'
      cases hj
      exact .inr ⟨rfl, fun _ => rfl, hinv.not_mem_owners hfresh⟩

theorem Conserved.notify {x : ConsumerData} {rest : List ConsumerData} {job : Option (Job H)}
    (h : Conserved g ⟨s, xs ++ ⟨x :: rest, job⟩ :: ys⟩ os)
    (hinv : Inv g ⟨s, xs ++ ⟨x :: rest, job⟩ :: ys⟩ slots) :
    Conserved g ⟨s.addCounter x.ref.key (-1), xs ++ (⟨rest, job⟩ :: s.spawned x) ++ ys⟩ os := by
  have hhandles : ∀ k, ((s.addCounter x.ref.key (-1)).requests k).map RequestData.handles =
      (s.requests k).map RequestData.handles := by
    intro k
    by_cases hk : k = x.ref.key
    · rw [hk]
      exact addCounter_handles s x.ref.key (-1)
    · rw [addCounter_other hk]
  -- a task that is spawned is the only thread of its request
  have hspawned : ∀ t ∈ s.spawned x, t.job = some (.task x.ref) ∧
      x.ref.key ∉ owners (xs ++ (⟨x :: rest, job⟩ : Thread H) :: ys) := by
    intro t ht
    obtain ⟨rfl, hone⟩ := mem_spawned ht
    obtain ⟨d, hd, hone⟩ := Option.map_eq_some_iff.mp hone
    exact ⟨rfl, hinv.not_owner hd hone⟩
  refine h.congr hinv.requests_ne_none rfl (fun k d hd => ?_) (fun k d' hd hd' => ?_)
    (fun t ht j hj => ?_) fun t' ht' j hj => ?_
  · have hsame := hhandles k
    rw [show s.requests k = some d from hd] at hsame
    exact Option.map_eq_some_iff.mp hsame
  · have hsame := hhandles k
    rw [show s.requests k = none from hd] at hsame
    rw [Option.map_eq_none_iff.mp hsame] at hd'
    cases hd'
  · simp only [mem_append, mem_cons] at ht
    rcases ht with ht | rfl | ht
    · exact ⟨t, by simp [ht], hj⟩
    · exact ⟨⟨rest, job⟩, by simp, hj⟩
    · exact ⟨t, by simp [ht], hj⟩
  · simp only [mem_append, mem_cons] at ht'
    rcases ht' with (ht' | rfl | ht') | ht'
    · exact .inl ⟨t', by simp [ht'], hj⟩
    · exact .inl ⟨⟨x :: rest, job⟩, by simp, hj⟩
    · obtain ⟨hjob, howner⟩ := hspawned t' ht'
      cases hjob.symm.trans hj
      exact .inr ⟨rfl, fun _ => rfl, howner⟩
    · exact .inl ⟨t', by simp [ht'], hj⟩

theorem Conserved.step {st st' : State H} (h : Conserved g st os) (hinv : Inv g st slots)
    (hstep : Step g std st st') : ∃ os', Conserved g st' os' := by
  obtain ⟨s, threads⟩ := st
  cases hstep with
  | message node time => exact ⟨os, h.message hinv node time⟩
  | notify ht =>
    obtain rfl := ht
    exact ⟨os, h.notify hinv⟩
  | work ht =>
    obtain rfl := ht
    exact h.work hinv
  | cancel ht =>
    obtain rfl := ht
    exact ⟨os, h.goOn hinv.phases rfl rfl (fun _ => rfl) rfl rfl fun _ _ => rfl⟩
  | finish ht =>
    obtain rfl := ht
    refine ⟨os, h.congr hinv.requests_ne_none rfl (fun k d hd => ⟨d, hd, rfl⟩) ?_ ?_ ?_⟩
    · intro k d' hd hd'
      rw [show s.requests k = none from hd] at hd'
      cases hd'
    · intro t ht j hj
      refine ⟨t, ?_, hj⟩
      simp only [mem_append, mem_cons] at ht ⊢
      rcases ht with ht | rfl | ht
      · exact .inl ht
      · cases hj
      · exact .inr ht
    · intro t ht j hj
      refine .inl ⟨t, ?_, hj⟩
      simp only [mem_append, mem_cons] at ht ⊢
      tauto

theorem Conserved.run {st : State H} (run : ReflTransGen (Step g std) g.start st) :
    ∃ os, Conserved g st os := by
  have hall : ∃ slots os, Inv g st slots ∧ Conserved g st os := by
    refine Transition.run_preserves
      (P := fun st => ∃ slots os, Inv g st slots ∧ Conserved g st os) ?_ run
      ⟨_, _, Inv.initial g, Conserved.initial g⟩
    rintro u v ⟨slots, os, hinv, h⟩ hstep
    obtain ⟨slots', hinv'⟩ := hinv.step hstep
    obtain ⟨os', h'⟩ := h.step hinv hstep
    exact ⟨slots', os', hinv', h'⟩
  obtain ⟨-, os, -, h⟩ := hall
  exact ⟨os, h⟩

/-- In every state of a run the handles that requests own, each listed once with its request and
its consumer, are together with the pools the handles the limiters were built with. A body runs
only while its request owns a handle for each of its consumers. When no request is registered,
every pool has its original handles. -/
theorem resourceLimiter_handles_conserved (g : Graph H)
    (std : OrderAlgorithms higherPriorityFirst) {st : State H}
    (run : ReflTransGen (Step g std) g.start st) :
    (∃ os : List (Holding H), (∀ o, o ∈ os ↔ st.Owns g o) ∧ (os.map Holding.place).Nodup ∧
      ∀ p, ((st.shared.limiters p).resourceHandles ++ handlesOf g os p).Perm (g.handles p)) ∧
    (∀ t ∈ st.threads, ∀ r, t.job = some (.body r) → ∃ d, st.shared.requests r.key = some d ∧
      ∀ i, i < g.size r.node → ∃ handle, d.handles i = some handle) ∧
    ((∀ k, st.shared.requests k = none) →
      ∀ p, (st.shared.limiters p).resourceHandles.Perm (g.handles p)) := by
  obtain ⟨os, h⟩ := Conserved.run run
  obtain ⟨slots, hinv⟩ := Inv.run run
  refine ⟨⟨os, h.owned, h.nodup, h.pools⟩, fun t ht r hr => ?_, fun hnone p => ?_⟩
  · obtain ⟨d, hd⟩ := Option.ne_none_iff_exists'.mp (hinv.requests_ne_none t ht _ hr)
    exact ⟨d, hd, fun i hi => Option.isSome_iff_exists.mp (h.stored t ht _ hr d hd i hi)⟩
  · have hempty : os = [] := by
      rw [eq_nil_iff_forall_not_mem]
      intro o ho
      rcases ((h.owned o).mp ho).2 with ⟨d, hd, -⟩ | ⟨t, ht, r, hr, -⟩
      · rw [hnone] at hd
        cases hd
      · exact hinv.requests_ne_none t ht _ hr (hnone _)
    have hpool := h.pools p
    rw [hempty, handlesOf, filter_nil, map_nil, append_nil] at hpool
    exact hpool

/-- The only handle is with the request whose body runs. -/
theorem resourceLimiter_handles_conserved_body :
    ∃ st, ReflTransGen (Step oneHandle bySorting) oneHandle.start st ∧
      (st.shared.limiters 0).resourceHandles = [] ∧
      ∃ os : List (Holding Nat), (∀ o, o ∈ os ↔ st.Owns oneHandle o) ∧
        (os.map Holding.place).Nodup ∧
        ∀ p, ((st.shared.limiters p).resourceHandles ++ handlesOf oneHandle os p).Perm
          (oneHandle.handles p) := by
  have run := firstRunning.2
  exact ⟨_, run, rfl, (resourceLimiter_handles_conserved oneHandle bySorting run).1⟩

/-- The body of a request runs, and its consumer has a handle of limiter `p`. -/
def State.Uses (g : Graph H) (st : State H) (p : Nat) (place : (Nat × Nat) × Nat) : Prop :=
  place.2 < g.size place.1.1 ∧ g.limiterOf (place.1.1, place.2) = p ∧
    ∃ t ∈ st.threads, ∃ r : Ref, t.job = some (.body r) ∧ r.key = place.1

/-- The bodies that run at once use a limiter at most as often as it has handles. -/
theorem bodies_within_handles {std : OrderAlgorithms higherPriorityFirst} {st : State H}
    (run : ReflTransGen (Step g std) g.start st) {p : Nat} {places : List ((Nat × Nat) × Nat)}
    (hnodup : places.Nodup) (huses : ∀ place ∈ places, st.Uses g p place) :
    places.length ≤ (g.handles p).length := by
  obtain ⟨os, h⟩ := Conserved.run run
  obtain ⟨slots, hinv⟩ := Inv.run run
  have hsub : places ⊆ (os.filter fun o => g.limiterOfHolding o = p).map Holding.place := by
    intro ⟨k, i⟩ hplace
    obtain ⟨hi, hp, t, ht, r, hjob, rfl⟩ := huses _ hplace
    obtain ⟨d, hd⟩ := Option.ne_none_iff_exists'.mp (hinv.requests_ne_none t ht _ hjob)
    obtain ⟨handle, hhandle⟩ := Option.isSome_iff_exists.mp (h.stored t ht _ hjob d hd i hi)
    have ho := (h.owned ⟨r.key, i, handle⟩).mpr ⟨hi, .inl ⟨d, hd, hhandle⟩⟩
    exact mem_map.mpr ⟨_, mem_filter.mpr ⟨ho, decide_eq_true hp⟩, rfl⟩
  have hpool := (h.pools p).length_eq
  have hle := (hnodup.subperm hsub).length_le
  rw [length_append, handlesOf, length_map] at hpool
  rw [length_map] at hle
  omega

/-- The only handle of the limiter is used by the body that runs. -/
theorem bodies_within_handles_one : ∃ st : State Nat, OneHandleRun st ∧
    st.Uses oneHandle 0 ((0, 1), 0) ∧ [((0, 1), 0)].length ≤ (oneHandle.handles 0).length := by
  have run := firstRunning.2
  refine ⟨_, run, ?_, bodies_within_handles run (nodup_singleton _) (forall_mem_singleton.mpr ?_)⟩
  all_goals exact ⟨Nat.one_pos, rfl, _, mem_singleton_self _, _, rfl, rfl⟩

end OneTbb.ResourceLimiter
