import OneTbb.ResourceLimiter.Run

/-!
# Whom a limiter serves

The calls of a limiter one after the other, for any consumers. A handle that is taken stays
with its request whatever requests come later, so a pending request is preceded by as many
notified ones as there are handles left, not by as many as there are handles.
-/

namespace OneTbb.ResourceLimiter

open List Relation Limiter

open Selection

variable {H : Type} {std : OrderAlgorithms higherPriorityFirst} {l : Limiter H} {n : Nat}
  {x : ConsumerData} {notified requests : List ConsumerData}

/-- What `operator==` compares. -/
def ConsumerData.key (x : ConsumerData) : Nat × Nat × Nat := (x.id.uniqueInteger, x.consumer)

/-- The requests a limiter knows. -/
def Limiter.waiting (l : Limiter H) : List ConsumerData := l.notified ++ l.pending

/-- A limiter between two calls, with the handles taken. -/
structure Served (H : Type) where
  limiter : Limiter H
  holders : List (ConsumerData × H)

/-- A call that has returned. A request that is denied has to be made again. -/
inductive Call (std : OrderAlgorithms higherPriorityFirst) : Served H → Served H → Prop
  | request {s : Served H} (x : ConsumerData) (hnew : x.key ∉ s.limiter.waiting.map (·.key)) :
      Call std s ⟨(s.limiter.request std x).1, s.holders⟩
  | acquire {s : Served H} {x : ConsumerData} (hx : x ∈ s.limiter.notified) :
      Call std s ⟨(s.limiter.acquire std x).1,
        ((s.limiter.acquire std x).2.map (x, ·)).toList ++ s.holders⟩
  | release {s : Served H} {x : ConsumerData} {handle : H} {left : List (ConsumerData × H)}
      (hs : s.holders.Perm ((x, handle) :: left)) :
      Call std s ⟨(s.limiter.release std handle).1, left⟩
  | withdraw {s : Served H} {x : ConsumerData} (hx : x ∈ s.limiter.waiting) :
      Call std s ⟨(s.limiter.withdraw std x).1, s.holders⟩

/-- What holds between the calls of a limiter that was built with `n` handles. -/
structure Served.Ranked (n : Nat) (s : Served H) : Prop where
  handles : s.limiter.resourceHandles.length + s.holders.length = n
  distinct : (s.limiter.waiting.map (·.key)).Nodup
  fair : s.limiter.Fair

variable {s t : Served H}

theorem Served.Ranked.eq_of_same (h : s.Ranked n) {x y : ConsumerData}
    (hx : x ∈ s.limiter.waiting) (hy : y ∈ s.limiter.waiting) (hsame : y.same x = true) :
    y = x := by
  apply inj_on_of_nodup_map h.distinct hy hx
  simpa [ConsumerData.same, ConsumerData.key, Prod.ext_iff] using hsame

theorem Served.Ranked.withdraw_pending (h : s.Ranked n)
    (hx : x ∈ s.limiter.waiting) (hnotified : x ∉ s.limiter.notified) :
    s.limiter.withdraw std x =
      ({ s.limiter with pending := s.limiter.pending.eraseP (·.same x) }, []) := by
  refine if_neg fun hany => hnotified ?_
  obtain ⟨y, hy, hsame⟩ := any_eq_true.mp hany
  rwa [h.eq_of_same hx (mem_append_left _ hy) hsame] at hy

theorem NotifySpec.waiting_perm {l l' : Limiter H} {moved : List ConsumerData}
    (h : NotifySpec l l' moved) : l'.waiting.Perm l.waiting := by
  unfold waiting
  refine (h.notified.append_right _).trans ?_
  rw [append_assoc]
  exact h.pending.symm.append_left _

/-- Notifying requests keeps the ranks if the handles add up. -/
theorem NotifySpec.ranked {l l' : Limiter H} {moved : List ConsumerData}
    {left : List (ConsumerData × H)} (hspec : NotifySpec l l' moved)
    (hcount : l.resourceHandles.length + left.length = n)
    (hwaiting : (l.waiting.map (·.key)).Nodup) : (⟨l', left⟩ : Served H).Ranked n :=
  ⟨by rw [hspec.handles]; exact hcount, (hspec.waiting_perm.map _).nodup_iff.mpr hwaiting,
    hspec.fair⟩

theorem Call.ranked (h : s.Ranked n) (call : Call std s t) : t.Ranked n := by
  have hhandles := h.handles
  have hgone {x : ConsumerData} {left : List ConsumerData}
      (hperm : s.limiter.waiting.Perm (x :: left)) : (left.map (·.key)).Nodup :=
    (nodup_cons.mp ((hperm.map _).nodup_iff.mp h.distinct)).2
  cases call with
  | request x hnew =>
    have hspec := s.limiter.request_spec std x
    have hwaiting : (s.limiter.request std x).1.waiting.Perm (x :: s.limiter.waiting) := by
      unfold waiting
      rw [hspec.pending]
      refine (hspec.notified.append_right _).trans ?_
      split
      · simp
      · rw [← append_assoc]
        exact perm_append_singleton x _
    refine ⟨by rw [hspec.handles]; exact hhandles, ?_, hspec.fair h.fair⟩
    exact (hwaiting.map _).nodup_iff.mpr (nodup_cons.mpr ⟨hnew, h.distinct⟩)
  | @acquire x hx =>
    have hspec := acquire_spec std hx fun y hy =>
      h.eq_of_same (mem_append_left _ hx) (mem_append_left _ hy)
    have hlength := congrArg List.length hspec.handles
    refine ⟨?_, hgone (x := x) ?_, hspec.fair h.fair⟩
    · simp only [length_append, Option.length_toList, Option.isSome_map] at hlength ⊢
      omega
    · unfold waiting
      rw [hspec.pending]
      exact hspec.notified.append_right _
  | release hs =>
    have hlength := hs.length_eq
    refine (release_spec std _ _).ranked ?_ h.distinct
    simp only [length_cons] at hlength ⊢
    omega
  | @withdraw x hx =>
    by_cases hnotified : x ∈ s.limiter.notified
    · obtain ⟨notified, hperm, hspec⟩ := withdraw_spec std hnotified fun y hy =>
        h.eq_of_same hx (mem_append_left _ hy)
      exact hspec.ranked hhandles (hgone (hperm.append_right _))
    · have hleft := eraseP_sublist (p := (·.same x)) (l := s.limiter.pending)
      rw [h.withdraw_pending hx hnotified]
      refine ⟨hhandles, h.distinct.sublist ((hleft.append_left _).map _), ?_⟩
      exact fun y hy => h.fair y (hleft.subset hy)

/-- A call that makes no request that precedes `x`. -/
def Undisturbed (std : OrderAlgorithms higherPriorityFirst) (x : ConsumerData)
    (s t : Served H) : Prop :=
  Call std s t ∧ ∀ y ∈ t.limiter.waiting, higherPriorityFirst y x = true → y ∈ s.limiter.waiting

/-- The requests that precede `x` do not become more. -/
theorem Undisturbed.countP_le (hs : s.Ranked n) (h : Undisturbed std x s t) :
    t.limiter.waiting.countP (higherPriorityFirst · x) ≤
      s.limiter.waiting.countP (higherPriorityFirst · x) := by
  have hnodup := ((h.1.ranked hs).distinct.of_map _).filter (higherPriorityFirst · x)
  rw [countP_eq_length_filter, countP_eq_length_filter]
  refine (subperm_of_subset hnodup fun y hy => ?_).length_le
  obtain ⟨hin, hyx⟩ := mem_filter.mp hy
  exact mem_filter.mpr ⟨h.2 y hin hyx, hyx⟩

end OneTbb.ResourceLimiter
