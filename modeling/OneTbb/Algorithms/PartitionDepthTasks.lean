import OneTbb.Algorithms.PartitionDepthBound

/-!
# The depths of a whole task tree

A task starts with a depth of at most five, or six if it is stolen. It has at most five when it
begins to balance, and none of the tasks it offers has more than it had. The counters can only
wrap within one task, when its range can be split too often.
-/

namespace OneTbb.Algorithms

open Nat

variable {R α : Type*}

namespace DynamicGrainsize

variable {kind : AdaptiveKind} {concurrency : Nat} {p : DynamicGrainsize}

/-- The divisor of a task of the affinity partitioner before any balancing. -/
structure Whole (concurrency : Nat) (p : DynamicGrainsize) : Prop where
  divisor_pos : 0 < p.divisor
  factor_dvd : LinearKind.affinity.factor ∣ p.divisor
  divisor_le : p.divisor ≤ concurrency * LinearKind.affinity.factor

theorem Whole.factor_le (h : Whole concurrency p) : AdaptiveKind.affinity.factor ≤ p.divisor :=
  le_of_dvd h.divisor_pos h.factor_dvd

theorem splitOff_maxDepth (kind : AdaptiveKind) (p : DynamicGrainsize) :
    (p.splitOff kind).1.maxDepth = p.maxDepth ∧ (p.splitOff kind).2.maxDepth = p.maxDepth := by
  have hparts : ∃ d e delay,
      p.splitOff kind = ({ p with divisor := d }, ⟨e, delay, p.maxDepth⟩) := by
    cases kind <;> exact ⟨_, _, _, rfl⟩
  obtain ⟨d, e, delay, hsplit⟩ := hparts
  rw [hsplit]
  exact ⟨rfl, rfl⟩

/-- A proportional split makes two such tasks of one. -/
theorem Whole.splitOff (h : Whole concurrency p) (hlt : concurrency < 2 ^ 31)
    (hmany : AdaptiveKind.affinity.factor < p.divisor) :
    Whole concurrency (p.splitOff .affinity).1 ∧ Whole concurrency (p.splitOff .affinity).2 := by
  have hsound : LinearAffinity.Sound .affinity concurrency
      ⟨p.divisor, 0, concurrency * LinearKind.affinity.factor⟩ :=
    ⟨h.divisor_pos, h.factor_dvd, h.divisor_le, rfl, .inl (show 0 < 2 ^ 16 by decide)⟩
  obtain ⟨left, right, hleft, hright, hsum, -, hsplit⟩ :=
    hsound.split_eq hlt (decide_eq_true hmany)
  obtain ⟨hfirst, hsecond⟩ := LinearAffinity.split_divisor_congr .affinity
    (show (⟨p.divisor, 0, 0⟩ : LinearAffinity).divisor =
      (⟨p.divisor, 0, concurrency * LinearKind.affinity.factor⟩ : LinearAffinity).divisor from rfl)
  rw [hsplit] at hfirst hsecond
  have hle := h.divisor_le
  simp only [add_mul] at hsum hfirst hsecond
  have hpos := LinearKind.affinity.factor_pos
  have hparts : ∀ n, 0 < n → n * LinearKind.affinity.factor ≤ p.divisor →
      ∀ q : DynamicGrainsize, q.divisor = n * LinearKind.affinity.factor →
        Whole concurrency q := by
    intro n hn hnle q hq
    exact ⟨hq ▸ mul_pos hn hpos, hq ▸ Nat.dvd_mul_left _ _, hq ▸ le_trans hnle hle⟩
  rw [DynamicGrainsize.splitOff]
  constructor
  · exact hparts left hleft (hsum ▸ le_add_right _ _) _ hfirst
  · exact hparts right hright (hsum ▸ le_add_left _ _) _ hsecond

/-- What holds of a new task. -/
def CreatedOk (kind : AdaptiveKind) (concurrency : Nat) (p : DynamicGrainsize) : Prop :=
  match kind with
  | .auto => p.maxDepth.toNat ≤ 5
  | .affinity => (Whole concurrency p ∧ p.maxDepth.toNat ≤ 5) ∨
      (p.divisor < AdaptiveKind.affinity.factor ∧ p.maxDepth.toNat ≤ 4)

/-- What holds of a task that executes. -/
def ExecutingOk (kind : AdaptiveKind) (concurrency : Nat) (p : DynamicGrainsize) : Prop :=
  match kind with
  | .auto => p.maxDepth.toNat ≤ 5 ∨ (p.maxDepth.toNat = 6 ∧ p.divisor = 1)
  | .affinity => (Whole concurrency p ∨ p.divisor = 1) ∧ p.maxDepth.toNat ≤ 5

theorem createdOk_initial (kind : AdaptiveKind) (hpos : 0 < concurrency)
    (hlt : concurrency < 2 ^ 31) : CreatedOk kind concurrency (initial kind concurrency) := by
  cases kind with
  | auto => exact Nat.le_refl 5
  | affinity =>
    have h := LinearAffinity.sound_initial .affinity hpos hlt (show 0 < 2 ^ 16 by decide)
    exact .inl ⟨⟨h.divisor_pos, h.factor_dvd,
      le_trans h.divisor_le (le_of_eq h.maxAffinity_eq)⟩, Nat.le_refl 5⟩

theorem toNat_add_one {d : Depth} (h : d.toNat < 255) : (d + 1).toNat = d.toNat + 1 := by
  rw [UInt8.toNat_add]
  exact mod_eq_of_lt (succ_lt_succ h)

/-- A stolen task gets more depth, and at least two. -/
theorem toNat_stolenDepth {d : Depth} (h : d.toNat ≤ 5) :
    ((if d = 0 then d + 1 else d) + demandDepthAdd).toNat = max (d.toNat + 1) 2 := by
  split
  case isTrue hzero =>
    subst hzero
    rfl
  case isFalse hpos =>
    have hne : d.toNat ≠ 0 := fun hzero => hpos (UInt8.toNat_inj.mp hzero)
    rw [demandDepthAdd, toNat_add_one (by omega)]
    omega

theorem CreatedOk.checkBeingStolen (h : CreatedOk kind concurrency p) (stolen : Bool) :
    ExecutingOk kind concurrency (p.checkBeingStolen kind stolen) ∧
      p.maxDepth ≤ (p.checkBeingStolen kind stolen).maxDepth := by
  have hle : p.maxDepth.toNat ≤ 5 := by
    cases kind with
    | auto => exact h
    | affinity => rcases h with ⟨-, h⟩ | ⟨-, h⟩ <;> omega
  have hstolen := toNat_stolenDepth hle
  rw [UInt8.le_iff_toNat_le, DynamicGrainsize.checkBeingStolen]
  split
  case isTrue htop =>
    have hdepth : kind = .affinity → p.maxDepth.toNat ≤ 4 := by
      rintro rfl
      rcases h with ⟨hwhole, -⟩ | ⟨-, h⟩
      · have := div_pos hwhole.factor_le (by decide)
        omega
      · exact h
    cases stolen with
    | false =>
      refine ⟨?_, le_rfl⟩
      cases kind with
      | auto => exact .inl hle
      | affinity => exact ⟨.inr rfl, hle⟩
    | true =>
      rw [if_pos rfl]
      refine ⟨?_, ?_⟩
      · cases kind with
        | auto =>
          show _ ≤ 5 ∨ _ = 6 ∧ 1 = 1
          rw [hstolen]
          omega
        | affinity =>
          refine ⟨.inr rfl, ?_⟩
          show _ ≤ 5
          rw [hstolen]
          have := hdepth rfl
          omega
      · show _ ≤ ((if p.maxDepth = 0 then p.maxDepth + 1 else p.maxDepth) +
          demandDepthAdd).toNat
        rw [hstolen]
        omega
  case isFalse htop =>
    refine ⟨?_, le_rfl⟩
    cases kind with
    | auto => exact .inl h
    | affinity =>
      rcases h with ⟨hwhole, hle⟩ | ⟨hsmall, -⟩
      · exact ⟨.inl hwhole, hle⟩
      · exact absurd (div_eq_of_lt hsmall) htop

theorem isDivisible_le (kind : AdaptiveKind) (p : DynamicGrainsize) :
    (p.isDivisible kind).2.maxDepth ≤ p.maxDepth := by
  rw [UInt8.le_iff_toNat_le]
  cases kind with
  | auto =>
    rw [isDivisible]
    split
    · exact le_rfl
    · split
      case isTrue hone =>
        have hpos : 1 ≤ p.maxDepth := by
          rw [UInt8.le_iff_toNat_le]
          apply Nat.pos_of_ne_zero
          intro hzero
          exact hone.2 (UInt8.toNat_inj.mp hzero)
        show (p.maxDepth - 1).toNat ≤ _
        rw [UInt8.toNat_sub_of_le _ _ hpos]
        exact sub_le _ _
      case isFalse => exact le_rfl
  | affinity => exact le_rfl

/-- A split of the loop in `execute` leaves and makes partition objects within the bounds. -/
theorem ExecutingOk.splitOff (h : ExecutingOk kind concurrency p) (hlt : concurrency < 2 ^ 31)
    (hdiv : (p.isDivisible kind).1 = true) :
    ExecutingOk kind concurrency ((p.isDivisible kind).2.splitOff kind).1 ∧
      CreatedOk kind concurrency ((p.isDivisible kind).2.splitOff kind).2 := by
  cases kind with
  | auto =>
    have hle : (p.isDivisible .auto).2.maxDepth.toNat ≤ 5 := by
      rw [isDivisible] at hdiv ⊢
      split at hdiv
      case isTrue hmany =>
        rw [if_pos hmany]
        exact h.resolve_right fun hsix => by omega
      case isFalse hfew =>
        split at hdiv
        case isTrue hone =>
          rw [if_neg hfew, if_pos hone]
          have hpos : 1 ≤ p.maxDepth := by
            rw [UInt8.le_iff_toNat_le]
            apply Nat.pos_of_ne_zero
            intro hzero
            exact hone.2 (UInt8.toNat_inj.mp hzero)
          show (p.maxDepth - 1).toNat ≤ 5
          have hone : (1 : Depth).toNat = 1 := rfl
          rw [UInt8.toNat_sub_of_le _ _ hpos, hone]
          rcases h with h | ⟨h, -⟩ <;> omega
        case isFalse => cases hdiv
    rw [ExecutingOk, CreatedOk, (splitOff_maxDepth _ _).1, (splitOff_maxDepth _ _).2]
    exact ⟨.inl hle, hle⟩
  | affinity =>
    have hself : (p.isDivisible .affinity).2 = p := rfl
    rw [hself, ExecutingOk, CreatedOk, (splitOff_maxDepth _ _).1, (splitOff_maxDepth _ _).2]
    have hmany : AdaptiveKind.affinity.factor < p.divisor := of_decide_eq_true hdiv
    have hfactor : AdaptiveKind.affinity.factor = 16 := rfl
    have hwhole : Whole concurrency p := h.1.resolve_right fun hone => by omega
    obtain ⟨hsrc, hnew⟩ := hwhole.splitOff hlt hmany
    exact ⟨⟨.inl hsrc, h.2⟩, .inl ⟨hnew, h.2⟩⟩

/-- A task that does not divide its range any more has at most five levels to balance with. -/
theorem ExecutingOk.balance (h : ExecutingOk kind concurrency p)
    (hdiv : (p.isDivisible kind).1 = false) (hdepth : p.maxDepth ≠ 0) :
    p.maxDepth.toNat ≤ 5 ∧
      (kind = .affinity → 0 < p.divisor ∧ p.divisor ≤ AdaptiveKind.affinity.factor) := by
  cases kind with
  | auto =>
    refine ⟨?_, by rintro ⟨⟩⟩
    refine h.resolve_right ?_
    rintro ⟨-, hone⟩
    rw [isDivisible, if_neg (by omega), if_pos ⟨by omega, hdepth⟩] at hdiv
    cases hdiv
  | affinity =>
    refine ⟨h.2, fun _ => ⟨?_, Nat.le_of_not_lt (of_decide_eq_false hdiv)⟩⟩
    rcases h.1 with hwhole | hone
    · exact hwhole.divisor_pos
    · omega

/-- A task offered by one with at most five levels starts within the bounds. -/
theorem OfferedOk.createdOk {start : Nat} (h : OfferedOk kind start p) (hstart : start ≤ 5) :
    CreatedOk kind concurrency p := by
  cases kind with
  | auto => exact le_trans (h.auto rfl) hstart
  | affinity =>
    obtain ⟨hdivisor, hdepth⟩ := h.affinity rfl
    exact .inr ⟨hdivisor, by omega⟩

end DynamicGrainsize

namespace TaskTree

open DynamicGrainsize WorkBalance

variable {kind : AdaptiveKind} {rg : Range R α} {range r : R} {concurrency depth : Nat}
  {p : DynamicGrainsize} {stage : TaskStage}

/-- What holds of a task at a stage. -/
def Ok (kind : AdaptiveKind) (concurrency : Nat) : TaskStage → DynamicGrainsize → Prop
  | .created => CreatedOk kind concurrency
  | .executing => ExecutingOk kind concurrency

/-- The loop in `execute` ends when the range or the partition is not divisible. -/
theorem isDivisible_eq_false (hrange : rg.isDivisible r = true)
    (hdivide : divide kind rg r p = none) : (p.isDivisible kind).1 = false := by
  rw [divide] at hdivide
  split at hdivide
  · cases hdivide
  case isFalse hnot => exact Bool.eq_false_iff.mpr fun htrue => hnot ⟨hrange, htrue⟩

theorem balance_bound (hok : ExecutingOk kind concurrency p) (hbound : depth ≤ 249)
    (hdivide : divide kind rg r p = none) :
    rg.isDivisible r = true → p.maxDepth ≠ 0 → p.maxDepth.toNat + depth < 255 ∧
      (kind = .affinity → 0 < p.divisor ∧ p.divisor ≤ AdaptiveKind.affinity.factor) := by
  intro hrange hdepth
  obtain ⟨hle, hdivisor⟩ := hok.balance (isDivisible_eq_false hrange hdivide) hdepth
  exact ⟨by omega, hdivisor⟩

/-- Every task keeps within the bounds, and its range has no more nested splits than the whole. -/
theorem ok (hpos : 0 < concurrency) (hlt : concurrency < 2 ^ 31) (hbound : depth ≤ 249)
    (hdepth : rg.DepthLe depth range) (h : TaskTree kind rg range concurrency stage r p) :
    Ok kind concurrency stage p ∧ rg.DepthLe depth r := by
  induction h with
  | root => exact ⟨createdOk_initial kind hpos hlt, hdepth⟩
  | start stolen _ ih => exact ⟨(ih.1.checkBeingStolen stolen).1, ih.2⟩
  | left _ hdivide ih =>
    rw [divide] at hdivide
    split at hdivide
    case isTrue hdiv =>
      cases hdivide
      obtain ⟨-, hfirst, -⟩ := ih.2.split hdiv.1 _
      exact ⟨(ExecutingOk.splitOff ih.1 hlt hdiv.2).1, hfirst.mono (sub_le _ _)⟩
    case isFalse => cases hdivide
  | right _ hdivide ih =>
    rw [divide] at hdivide
    split at hdivide
    case isTrue hdiv =>
      cases hdivide
      obtain ⟨-, -, hsecond⟩ := ih.2.split hdiv.1 _
      exact ⟨(ExecutingOk.splitOff ih.1 hlt hdiv.2).2, hsecond.mono (sub_le _ _)⟩
    case isFalse => cases hdivide
  | @offered r p s child _ hdivide hrun hchild ih =>
    have hstart := balance_bound ih.1 hbound hdivide
    rcases hrun.depthInv ih.2 hstart with ⟨c, hs, hc, hrange, hlimit⟩ | ⟨-, hnone⟩
    · rw [hs.offered] at hchild
      obtain ⟨hchilddepth, hoffered⟩ := hc.offered child hchild
      have hfive := (ExecutingOk.balance ih.1 (isDivisible_eq_false hrange hdivide) hlimit).1
      exact ⟨hoffered.createdOk hfive, hchilddepth⟩
    · rw [hnone] at hchild
      cases hchild

end TaskTree

open WorkBalance in
/-- No depth counter of a task tree wraps if no chain of nested splits of the range is longer than
249: neither when a task is stolen, nor in `is_divisible`, `split_to_fill`, `check_for_demand` or
`align_depth`. -/
theorem partition_depth_noWrap (kind : AdaptiveKind) (rg : Range R α) (range : R)
    (concurrency : Nat) (hpos : 0 < concurrency) (hlt : concurrency < 2 ^ 31)
    (hdepth : rg.DepthLe 249 range) :
    (∀ r p, TaskTree kind rg range concurrency .created r p → ∀ stolen,
      p.maxDepth ≤ (p.checkBeingStolen kind stolen).maxDepth) ∧
    (∀ r p, TaskTree kind rg range concurrency .executing r p →
      (p.isDivisible kind).2.maxDepth ≤ p.maxDepth) ∧
    ∀ r p s, TaskTree kind rg range concurrency .executing r p → divide kind rg r p = none →
      State.Run rg kind.mode r p s → s.NoWrap rg kind.mode := by
  refine ⟨?_, ?_, ?_⟩
  · intro r p h stolen
    obtain ⟨hok, -⟩ := h.ok hpos hlt (Nat.le_refl 249) hdepth
    exact (DynamicGrainsize.CreatedOk.checkBeingStolen hok stolen).2
  · intro r p _
    exact p.isDivisible_le kind
  · intro r p s h hdivide hrun
    obtain ⟨hok, hrange⟩ := h.ok hpos hlt (Nat.le_refl 249) hdepth
    have hstart := TaskTree.balance_bound hok (Nat.le_refl 249) hdivide
    rcases hrun.depthInv hrange hstart with ⟨c, hs, hc, hdiv, hlimit⟩ | ⟨hphase, -⟩
    · exact hc.noWrap hs (hstart hdiv hlimit).1
    · constructor <;> simp [hphase]

/-- A range of some iterations of which each split takes one. -/
def unbalancedRange : Range Nat Unit where
  empty _ := false
  isDivisible n := decide (0 < n)
  split _ n := (n - 1, 0)
  elems n := List.replicate (n + 1) ()
  elems_split := by
    intro _ n h
    have hpos : 0 < n := of_decide_eq_true h
    rw [← List.replicate_add, Nat.sub_add_cancel hpos]
  elems_empty := by
    intro n h
    cases h

theorem unbalancedRange_depthLe (n : Nat) : unbalancedRange.DepthLe n n := by
  induction n with
  | zero => rfl
  | succ n ih =>
    intro _ _
    refine ⟨ih, ?_⟩
    have hzero : unbalancedRange.DepthLe 0 0 := rfl
    exact hzero.mono (zero_le n)

open WorkBalance in
/-- A run of the auto partitioner on a range of 250 iterations. -/
theorem partition_depth_noWrap_unbalanced :
    ∃ r p, TaskTree .auto unbalancedRange 249 1 .executing r p ∧
      divide .auto unbalancedRange r p = none ∧ p.maxDepth = 4 ∧
      ∀ s, State.Run unbalancedRange AdaptiveKind.auto.mode r p s →
        s.NoWrap unbalancedRange AdaptiveKind.auto.mode := by
  have hroot : TaskTree .auto unbalancedRange 249 1 .executing 249 ⟨2, .begin, 5⟩ :=
    .start false .root
  have htask : TaskTree .auto unbalancedRange 249 1 .executing 247 ⟨0, .begin, 4⟩ :=
    .left (.left hroot rfl) rfl
  exact ⟨247, ⟨0, .begin, 4⟩, htask, rfl, rfl, fun s hrun =>
    (partition_depth_noWrap .auto unbalancedRange 249 1 (by decide) (by decide)
      (unbalancedRange_depthLe 249)).2.2 247 _ s htask rfl hrun⟩

open WorkBalance in
/-- On a range of 303 iterations, with all offered tasks stolen at once, the depth limit of the
first task becomes zero, and then the depth of the range it offers is larger. -/
theorem not_partition_depth_noWrap :
    ∃ r p s, TaskTree .auto unbalancedRange 302 1 .executing r p ∧
      divide .auto unbalancedRange r p = none ∧
      State.Run unbalancedRange AdaptiveKind.auto.mode r p s ∧
      s.phase = .demand ∧ s.partition.maxDepth = 255 ∧
      (AdaptiveKind.auto.mode.checkForDemand s.partition true).1 = true ∧
      (AdaptiveKind.auto.mode.checkForDemand s.partition true).2.maxDepth = 0 ∧
      1 < s.pool.size ∧ 0 < s.pool.frontDepth := by
  have hroot : TaskTree .auto unbalancedRange 302 1 .executing 302 ⟨2, .begin, 5⟩ :=
    .start false .root
  have htask : TaskTree .auto unbalancedRange 302 1 .executing 300 ⟨0, .begin, 4⟩ :=
    .left (.left hroot rfl) rfl
  have hrun : ((List.replicate 758 true).foldlM
        (fun s peerStolen => State.step unbalancedRange AdaptiveKind.auto.mode s peerStolen)
        (State.start unbalancedRange AdaptiveKind.auto.mode 300 ⟨0, .begin, 4⟩)).map
          (fun s => ((s.partition, s.phase), s.pool.size, s.pool.frontDepth)) =
      some (((⟨0, .begin, 255⟩ : DynamicGrainsize), .demand), 5, 252) := by
    decide +kernel
  obtain ⟨s, hs, hseen⟩ := Option.map_eq_some_iff.mp hrun
  obtain ⟨⟨hpartition, hphase⟩, hsize, hfront⟩ : (s.partition = ⟨0, .begin, 255⟩ ∧
      s.phase = .demand) ∧ s.pool.size = 5 ∧ s.pool.frontDepth = 252 := by
    simpa using hseen
  refine ⟨300, ⟨0, .begin, 4⟩, s, htask, rfl, Transition.run_of_foldlM hs, hphase,
    ?_, ?_, ?_, ?_, ?_⟩
  · rw [hpartition]
  · rw [hpartition]
    decide
  · rw [hpartition]
    decide
  · rw [hsize]
    decide
  · rw [hfront]
    decide

end OneTbb.Algorithms
