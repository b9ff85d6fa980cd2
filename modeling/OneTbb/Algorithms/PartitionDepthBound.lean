import OneTbb.Algorithms.PartitionDepth

/-!
# A bound for the depth counters

The depths in the pool of a task grow from the front to the back. Each demand answer takes the
front away or is followed by a split, so the depth limit of a task is at most the depth at the
front of its pool ahead of where it started.
-/

namespace OneTbb.Algorithms

open List Function Option Nat

variable {R α : Type*}

namespace RangeVector

variable {rg : Range R α} {v v' : RangeVector R} {l : List (R × Nat)} {r : R} {d : Nat}

/-- The pool holds the ranges with their depths, from the front to the back. -/
structure HoldsDepths (v : RangeVector R) (l : List (R × Nat)) : Prop where
  contains : v.Contains rangePoolSize (l.map Prod.fst)
  depth : ∀ i x, l[i]? = some x → (v.depth ((v.tail + i) % rangePoolSize)).toNat = x.2

theorem holdsDepths_new (r : R) : (new r).HoldsDepths [(r, 0)] := by
  refine ⟨contains_new (by decide) r, ?_⟩
  intro i x hx
  obtain ⟨hi, rfl⟩ := List.getElem?_eq_some_iff.mp hx
  obtain rfl := lt_one_iff.mp hi
  rfl

theorem HoldsDepths.frontDepth (h : v.HoldsDepths ((r, d) :: l)) : v.frontDepth.toNat = d := by
  have hdepth := h.depth 0 (r, d) rfl
  rwa [add_zero, mod_eq_of_lt h.contains.tail_lt] at hdepth

theorem HoldsDepths.backDepth (h : v.HoldsDepths (l ++ [(r, d)])) : v.backDepth.toNat = d := by
  have hcontains := h.contains
  rw [map_append] at hcontains
  have hhead := hcontains.head_eq
  rw [length_map] at hhead
  rw [RangeVector.backDepth, hhead]
  exact h.depth l.length (r, d) (by simp)

theorem popFront_eq {n : Nat} (h : v.popFront n = some v') :
    v'.tail = (v.tail + 1) % n ∧ v'.depth = v.depth := by
  obtain ⟨pool, -, hpool⟩ := bind_eq_some_iff.mp h
  cases hpool
  exact ⟨rfl, rfl⟩

theorem popBack_eq {n : Nat} (h : v.popBack n = some v') :
    v'.tail = v.tail ∧ v'.depth = v.depth := by
  obtain ⟨pool, -, hpool⟩ := bind_eq_some_iff.mp h
  cases hpool
  exact ⟨rfl, rfl⟩

theorem HoldsDepths.popFront (h : v.HoldsDepths ((r, d) :: l)) :
    ∃ v', v.popFront rangePoolSize = some v' ∧ v'.HoldsDepths l := by
  obtain ⟨v', hpop, hcontains⟩ := h.contains.popFront
  obtain ⟨htail, hdepth⟩ := popFront_eq hpop
  refine ⟨v', hpop, hcontains, ?_⟩
  intro i x hx
  rw [htail, hdepth, mod_add_mod, add_assoc, add_comm 1]
  exact h.depth (i + 1) x hx

theorem HoldsDepths.popBack (h : v.HoldsDepths (l ++ [(r, d)])) :
    ∃ v', v.popBack rangePoolSize = some v' ∧ v'.HoldsDepths l := by
  have hcontains := h.contains
  rw [map_append] at hcontains
  obtain ⟨v', hpop, hcontains⟩ := hcontains.popBack
  obtain ⟨htail, hdepth⟩ := popBack_eq hpop
  refine ⟨v', hpop, hcontains, ?_⟩
  intro i x hx
  rw [htail, hdepth]
  refine h.depth i x ?_
  rw [List.getElem?_append_left (List.getElem?_eq_some_iff.mp hx).1]
  exact hx

/-- The two parts of the last range have its depth increased by one. -/
theorem HoldsDepths.splitBack (rg : Range R α) (h : v.HoldsDepths (l ++ [(r, d)]))
    (hroom : l.length + 1 < rangePoolSize) (hd : d < 255) :
    ∃ v', v.splitBack rg rangePoolSize = some v' ∧ v'.HoldsDepths
      (l ++ [((rg.split .split r).2, d + 1), ((rg.split .split r).1, d + 1)]) := by
  have hcontains := h.contains
  rw [map_append, map_singleton] at hcontains
  have hnext : (v.head + 1) % rangePoolSize = (v.tail + (l.length + 1)) % rangePoolSize := by
    rw [hcontains.head_succ, length_append, length_map, length_singleton]
  have hhead : v.head = (v.tail + l.length) % rangePoolSize := by
    rw [hcontains.head_eq, length_map]
  have hslot : ∀ i < rangePoolSize, ∀ j < rangePoolSize, i ≠ j →
      (v.tail + i) % rangePoolSize ≠ (v.tail + j) % rangePoolSize :=
    fun i hi j hj hne => RingDeque.slot_ne hi hj hne
  have hempty : v.pool ((v.head + 1) % rangePoolSize) = none := by
    rw [hcontains.head_succ]
    exact hcontains.holds.next (by simpa using hroom)
  have hne : v.head ≠ (v.head + 1) % rangePoolSize := by
    rw [hnext, hhead]
    exact hslot _ (by omega) _ hroom (by omega)
  obtain ⟨v', hsplit, hv'⟩ := hcontains.splitBack rg (by simpa using hroom)
  refine ⟨v', hsplit, ?_, ?_⟩
  · rw [map_append]
    exact hv'
  · rw [splitBack_eq rg hcontains.back hempty hne] at hsplit
    cases hsplit
    have hback : (v.depth v.head).toNat = d := h.backDepth
    have hdeeper : (v.depth v.head + 1).toNat = d + 1 := by
      rw [UInt8.toNat_add, hback]
      exact mod_eq_of_lt (succ_lt_succ hd)
    intro i x hx
    show (update (update v.depth v.head (v.depth v.head + 1))
      ((v.head + 1) % rangePoolSize) (v.depth v.head + 1)
        ((v.tail + i) % rangePoolSize)).toNat = x.2
    rcases Nat.lt_trichotomy i l.length with hi | rfl | hi
    · rw [List.getElem?_append_left hi] at hx
      rw [update_of_ne, update_of_ne]
      · exact h.depth i x (by rw [List.getElem?_append_left hi, hx])
      · rw [hhead]
        exact hslot _ (by omega) _ (by omega) (by omega)
      · rw [hnext]
        exact hslot _ (by omega) _ hroom (by omega)
    · simp only [List.getElem?_append_right le_rfl, Nat.sub_self, List.getElem?_cons_zero,
        Option.some.injEq] at hx
      subst hx
      rw [← hhead, update_of_ne hne, update_self, hdeeper]
    · have hlen := (List.getElem?_eq_some_iff.mp hx).1
      simp only [length_append, length_cons, length_nil] at hlen
      obtain rfl : i = l.length + 1 := by omega
      rw [List.getElem?_append_right (le_succ _), succ_sub le_rfl,
        Nat.sub_self] at hx
      cases hx
      rw [← hnext, update_self, hdeeper]

end RangeVector

namespace WorkBalance

variable {P : Type*}

/-- A state of `work_balance` with the pool as a list of ranges and their depths. -/
structure Depths (R P : Type*) where
  phase : Phase
  pool : List (R × Nat)
  partition : P
  offered : List (R × P)

/-- What a step of `work_balance` may do with the depths. -/
inductive Depths.Move (rg : Range R α) (mode : PartitionMode P) : Depths R P → Depths R P → Prop
  | split {l r d p offered} (hd : d < (mode.maxDepth p).toNat)
      (hdiv : rg.isDivisible r = true) :
      Move rg mode ⟨.fill, l ++ [(r, d)], p, offered⟩
        ⟨.fill, l ++ [((rg.split .split r).2, d + 1), ((rg.split .split r).1, d + 1)], p, offered⟩
  | filled {l r d p offered}
      (hfull : l.length + 1 < rangePoolSize → d < (mode.maxDepth p).toNat →
        rg.isDivisible r = false) :
      Move rg mode ⟨.fill, l ++ [(r, d)], p, offered⟩ ⟨.demand, l ++ [(r, d)], p, offered⟩
  | offer {r d l p offered} (peerStolen : Bool) (base : Depth) (hl : l ≠ [])
      (hbase : base.toNat = d) (hdemand : (mode.checkForDemand p peerStolen).1 = true) :
      Move rg mode ⟨.demand, (r, d) :: l, p, offered⟩
        ⟨.fill, l, (mode.split (mode.checkForDemand p peerStolen).2).1,
          (r, mode.alignDepth (mode.split (mode.checkForDemand p peerStolen).2).2 base) ::
            offered⟩
  | again {r d p offered} (peerStolen : Bool)
      (hdemand : (mode.checkForDemand p peerStolen).1 = true)
      (hd : d < (mode.maxDepth (mode.checkForDemand p peerStolen).2).toNat)
      (hdiv : rg.isDivisible r = true) :
      Move rg mode ⟨.demand, [(r, d)], p, offered⟩
        ⟨.fill, [(r, d)], (mode.checkForDemand p peerStolen).2, offered⟩
  | run {l r d p offered} (peerStolen : Bool)
      (hdemand : (mode.checkForDemand p peerStolen).1 = true → l = []) :
      Move rg mode ⟨.demand, l ++ [(r, d)], p, offered⟩
        ⟨if l = [] then .finished else .fill, l, (mode.checkForDemand p peerStolen).2, offered⟩

variable {l : List (R × Nat)} {peerStolen : Bool} {d : Nat} {p q : DynamicGrainsize} {r : R}

namespace State

variable {rg : Range R α} {mode : PartitionMode P} {s s' : State R P} {c : Depths R P}

/-- The ring of the state holds the pool of the list. -/
structure ShowsDepths (s : State R P) (c : Depths R P) : Prop where
  pool : s.pool.HoldsDepths c.pool
  partition : s.partition = c.partition
  offered : s.offered = c.offered
  phase : s.phase = c.phase
  finished : c.phase = .finished ↔ c.pool = []

theorem ShowsDepths.exists_back (h : s.ShowsDepths c) (hphase : s.phase ≠ .finished) :
    ∃ l r d, c.pool = l ++ [(r, d)] := by
  have hne : c.pool ≠ [] := by
    intro hnil
    rw [h.phase, ne_eq, h.finished] at hphase
    exact hphase hnil
  obtain ⟨l, x, hl⟩ := (eq_nil_or_concat' c.pool).resolve_left hne
  exact ⟨l, x.1, x.2, hl⟩

theorem isDivisible_iff {v : RangeVector R} (h : v.HoldsDepths (l ++ [(r, d)])) (maxDepth : Depth) :
    v.isDivisible rg maxDepth = true ↔ d < maxDepth.toNat ∧ rg.isDivisible r = true := by
  have hcontains := h.contains
  rw [map_append] at hcontains
  rw [RangeVector.isDivisible, hcontains.back, Bool.and_eq_true, decide_eq_true_iff,
    UInt8.lt_iff_toNat_lt, h.backDepth]
  rfl

theorem ShowsDepths.fill (h : s.ShowsDepths c) (hphase : s.phase = .fill)
    (hstep : s.step rg mode peerStolen = some s') :
    ∃ c', s'.ShowsDepths c' ∧ c.Move rg mode c' := by
  obtain ⟨phase, pool, partition, offered⟩ := c
  obtain ⟨l, r, d, rfl⟩ := h.exists_back (by simp [hphase])
  obtain ⟨hpool, rfl, rfl, hphase', -⟩ := h
  obtain rfl : Phase.fill = phase := hphase.symm.trans hphase'
  have hsize : s.pool.size = l.length + 1 := by simpa using hpool.contains.size
  simp only [State.step, hphase] at hstep
  split at hstep
  case isTrue hcond =>
    obtain ⟨hd, hdiv⟩ := (isDivisible_iff hpool _).mp hcond.2
    rw [hsize] at hcond
    have hlt := (mode.maxDepth s.partition).toNat_lt
    obtain ⟨v', hsplit, hv'⟩ := hpool.splitBack rg hcond.1 (by omega)
    rw [hsplit, map_some] at hstep
    cases hstep
    exact ⟨_, ⟨hv', rfl, rfl, rfl, by simp⟩, .split hd hdiv⟩
  case isFalse hcond =>
    cases hstep
    refine ⟨⟨.demand, l ++ [(r, d)], s.partition, s.offered⟩,
      ⟨hpool, rfl, rfl, rfl, by simp⟩, .filled ?_⟩
    intro hroom hd
    rw [hsize, isDivisible_iff hpool] at hcond
    exact Bool.eq_false_iff.mpr fun hdiv => hcond ⟨hroom, hd, hdiv⟩

/-- The back of the pool is run. -/
theorem showsDepths_runBack
    (hstep : s.runBack = some s') (hpool : s.pool.HoldsDepths (l ++ [(r, d)])) :
    s'.ShowsDepths ⟨if l = [] then .finished else .fill, l, s.partition, s.offered⟩ := by
  have hcontains := hpool.contains
  rw [map_append] at hcontains
  obtain ⟨v', hpop, hv'⟩ := hpool.popBack
  rw [State.runBack, hcontains.back, hpop] at hstep
  cases hstep
  have hsize : v'.size = l.length := by simpa using hv'.contains.size
  refine ⟨hv', rfl, rfl, ?_, ?_⟩
  · simp only [loop, hsize, length_eq_zero_iff]
  · by_cases hl : l = [] <;> simp [hl]

theorem ShowsDepths.demand (h : s.ShowsDepths c) (hphase : s.phase = .demand)
    (hstep : s.step rg mode peerStolen = some s') :
    ∃ c', s'.ShowsDepths c' ∧ c.Move rg mode c' := by
  obtain ⟨phase, pool, partition, offered⟩ := c
  obtain ⟨l, r, d, rfl⟩ := h.exists_back (by simp [hphase])
  obtain ⟨hpool, rfl, rfl, hphase', -⟩ := h
  obtain rfl : Phase.demand = phase := hphase.symm.trans hphase'
  have hsize : s.pool.size = l.length + 1 := by simpa using hpool.contains.size
  simp only [State.step, hphase] at hstep
  split at hstep
  case isFalse hdemand =>
    exact ⟨_, showsDepths_runBack hstep hpool, .run peerStolen fun h => absurd h hdemand⟩
  case isTrue hdemand =>
    split at hstep
    case isTrue hmany =>
      cases l with
      | nil => simp [hsize] at hmany
      | cons first rest =>
        obtain ⟨r₀, d₀⟩ := first
        obtain ⟨v', hpop, hv'⟩ := RangeVector.HoldsDepths.popFront hpool
        have hfront : s.pool.front = some r₀ := hpool.contains.front
        have hdepth : s.pool.frontDepth.toNat = d₀ := RangeVector.HoldsDepths.frontDepth hpool
        simp only [State.offerFront, hfront, hpop] at hstep
        cases hstep
        have hsize' : v'.size = rest.length + 1 := by simpa using hv'.contains.size
        refine ⟨⟨.fill, rest ++ [(r, d)], _, _⟩, ⟨hv', rfl, rfl, ?_, by simp⟩,
          .offer peerStolen s.pool.frontDepth (by simp) hdepth hdemand⟩
        simp [loop, hsize']
    case isFalse hfew =>
      obtain rfl : l = [] := by
        rw [hsize] at hfew
        exact length_eq_zero_iff.mp (by omega)
      split at hstep
      case isTrue hdiv =>
        obtain ⟨hd, hdiv⟩ := (isDivisible_iff hpool _).mp hdiv
        cases hstep
        refine ⟨⟨.fill, [(r, d)], (mode.checkForDemand s.partition peerStolen).2, s.offered⟩,
          ⟨hpool, rfl, rfl, ?_, by simp⟩, .again peerStolen hdemand hd hdiv⟩
        simp [loop, hsize]
      case isFalse =>
        exact ⟨_, showsDepths_runBack hstep hpool, .run peerStolen fun _ => rfl⟩

theorem ShowsDepths.step (h : s.ShowsDepths c) (hstep : s.step rg mode peerStolen = some s') :
    ∃ c', s'.ShowsDepths c' ∧ c.Move rg mode c' := by
  cases hphase : s.phase with
  | fill => exact h.fill hphase hstep
  | demand => exact h.demand hphase hstep
  | finished =>
    rw [step_finished hphase] at hstep
    cases hstep

end State

end WorkBalance

/-! ## Nested splits -/

namespace Range

variable {rg : Range R α} {r : R} {n : Nat}

theorem DepthLe.succ (h : rg.DepthLe n r) : rg.DepthLe (n + 1) r := by
  induction n generalizing r with
  | zero =>
    intro hdiv
    rw [DepthLe, hdiv] at h
    cases h
  | succ n ih =>
    intro hdiv so
    obtain ⟨hfirst, hsecond⟩ := h hdiv so
    exact ⟨ih hfirst, ih hsecond⟩

theorem DepthLe.mono {k : Nat} (h : rg.DepthLe n r) (hle : n ≤ k) : rg.DepthLe k r := by
  induction hle with
  | refl => exact h
  | step _ ih => exact ih.succ

theorem DepthLe.split (h : rg.DepthLe n r) (hdiv : rg.isDivisible r = true) (so : SplitObj) :
    0 < n ∧ rg.DepthLe (n - 1) (rg.split so r).1 ∧ rg.DepthLe (n - 1) (rg.split so r).2 := by
  cases n with
  | zero =>
    rw [DepthLe, hdiv] at h
    cases h
  | succ n =>
    obtain ⟨hfirst, hsecond⟩ := h hdiv so
    exact ⟨succ_pos n, hfirst, hsecond⟩

end Range

/-! ## The depths of a pool -/

/-- The depths grow from front to back. Only the last two may be equal. -/
def Staircase : List (R × Nat) → Prop
  | [] => True
  | [_] => True
  | x :: y :: rest => (x.2 < y.2 ∨ rest = [] ∧ x.2 = y.2) ∧ Staircase (y :: rest)

theorem Staircase.tail {x : R × Nat} (h : Staircase (x :: l)) :
    Staircase l := by
  cases l with
  | nil => trivial
  | cons y rest => exact h.2

theorem Staircase.dropLast {x : R × Nat} (h : Staircase (l ++ [x])) :
    Staircase l := by
  induction l with
  | nil => trivial
  | cons y rest ih =>
    cases rest with
    | nil => trivial
    | cons z rest =>
      refine ⟨.inl ?_, ih h.tail⟩
      exact h.1.resolve_right fun hlast => by simp at hlast

/-- The parts of the last range are one level deeper. -/
theorem Staircase.split {r a b : R}
    (h : Staircase (l ++ [(r, d)])) : Staircase (l ++ [(a, d + 1), (b, d + 1)]) := by
  induction l with
  | nil => exact ⟨.inr ⟨rfl, rfl⟩, trivial⟩
  | cons y rest ih =>
    cases rest with
    | nil =>
      have hle : y.2 ≤ d := h.1.elim le_of_lt fun heq => le_of_eq heq.2
      exact ⟨.inl (lt_succ_of_le hle), ih h.tail⟩
    | cons z rest =>
      refine ⟨.inl ?_, ih h.tail⟩
      exact h.1.resolve_right fun hlast => by simp at hlast

/-! ## Demand -/

namespace DynamicGrainsize

variable {kind : AdaptiveKind} {p : DynamicGrainsize}

/-- A task of the affinity partitioner that starts with some depth answers one demand without more
depth. This is one afterwards. -/
def spent (kind : AdaptiveKind) (start : Nat) (p : DynamicGrainsize) : Nat :=
  if kind = .affinity ∧ 2 ≤ start ∧ p.divisor = 0 then 1 else 0

/-- What `check_for_demand` may answer. -/
theorem checkForDemand_cases (kind : AdaptiveKind) (p : DynamicGrainsize) (peerStolen : Bool) :
    (∃ delay, kind.mode.checkForDemand p peerStolen = (false, { p with delay })) ∨
    (kind.mode.checkForDemand p peerStolen =
        (true, { p with maxDepth := p.maxDepth + demandDepthAdd }) ∧
      (kind = .affinity → p.divisor = 0 ∨ p.maxDepth = 0)) ∨
    (kind = .affinity ∧ kind.mode.checkForDemand p peerStolen = (true, p) ∧ 1 < p.divisor) ∨
    (kind = .affinity ∧ kind.mode.checkForDemand p peerStolen = (true, { p with divisor := 0 }) ∧
      p.divisor = 1) := by
  cases kind with
  | auto =>
    simp only [AdaptiveKind.mode, auto, autoCheckForDemand]
    cases peerStolen with
    | false => exact .inl ⟨p.delay, rfl⟩
    | true => exact .inr (.inl ⟨rfl, by rintro ⟨⟩⟩)
  | affinity =>
    simp only [AdaptiveKind.mode, affinity, checkForDemand]
    split
    case h_1 hdelay =>
      split
      case isTrue hmany => exact .inr (.inr (.inl ⟨trivial, rfl, hmany⟩))
      case isFalse hfew =>
        split
        case isTrue hone => exact .inr (.inr (.inr ⟨trivial, rfl, by omega⟩))
        case isFalse hzero =>
          cases peerStolen with
          | false => exact .inl ⟨p.delay, rfl⟩
          | true => exact .inr (.inl ⟨rfl, fun _ => by
            by_contra hnot
            rw [not_or] at hnot
            exact hzero hnot⟩)
    case h_2 => exact .inl ⟨.pass, rfl⟩
    case h_3 => exact .inl ⟨p.delay, rfl⟩

theorem checkForDemand_false {q : DynamicGrainsize}
    (h : kind.mode.checkForDemand p peerStolen = (false, q)) :
    q.maxDepth = p.maxDepth ∧ q.divisor = p.divisor := by
  rcases checkForDemand_cases kind p peerStolen with
    ⟨delay, heq⟩ | ⟨heq, -⟩ | ⟨-, heq, -⟩ | ⟨-, heq, -⟩ <;> rw [heq] at h
  · obtain rfl := (Prod.mk.inj h).2
    exact ⟨rfl, rfl⟩
  all_goals cases (Prod.mk.inj h).1

/-- A demand answer adds one to the depth, or it is one of those the affinity partitioner gives
without. -/
theorem checkForDemand_true {q : DynamicGrainsize} (start : Nat)
    (hpos : 0 < p.maxDepth.toNat) (hlt : p.maxDepth.toNat < 255)
    (h : kind.mode.checkForDemand p peerStolen = (true, q)) :
    spent kind start q.split.1 = spent kind start q ∧ q.divisor ≤ p.divisor ∧
      (q.maxDepth.toNat = p.maxDepth.toNat + 1 ∧ spent kind start q = spent kind start p ∧
          (kind = .affinity → 2 ≤ start → spent kind start p = 1) ∨
        kind = .affinity ∧ q.maxDepth = p.maxDepth ∧ spent kind start p = 0 ∧
          (spent kind start q = 0 ∨ spent kind start q = 1 ∧ 2 ≤ start)) := by
  rcases checkForDemand_cases kind p peerStolen with
    ⟨delay, heq⟩ | ⟨heq, hzero⟩ | ⟨rfl, heq, hmany⟩ | ⟨rfl, heq, hone⟩ <;>
    rw [heq] at h <;> obtain ⟨htrue, rfl⟩ := Prod.mk.inj h
  · cases htrue
  · have hadd : (p.maxDepth + demandDepthAdd).toNat = p.maxDepth.toNat + 1 := by
      rw [UInt8.toNat_add]
      exact mod_eq_of_lt (succ_lt_succ hlt)
    have hdivisor : kind = .affinity → p.divisor = 0 := by
      intro hkind
      refine (hzero hkind).resolve_right fun hm => ?_
      rw [hm] at hpos
      cases hpos
    cases kind with
    | auto => simp [spent, hadd]
    | affinity =>
      have hnone := hdivisor rfl
      refine ⟨?_, le_rfl, .inl ⟨hadd, rfl, ?_⟩⟩
      · simp [spent, split, hnone]
      · intro _ hstart
        simp [spent, hnone, hstart]
  · have hhalf : ¬ p.divisor / 2 = 0 := by omega
    have hsome : ¬ p.divisor = 0 := by omega
    simp [spent, split, hhalf, hsome]
  · by_cases hstart : 2 ≤ start <;> simp [spent, split, hone, hstart]

/-- What a task that starts to balance with the depth `start` leaves to the tasks it offers. -/
structure OfferedOk (kind : AdaptiveKind) (start : Nat) (p : DynamicGrainsize) : Prop where
  auto : kind = .auto → p.maxDepth.toNat ≤ start
  affinity : kind = .affinity →
    p.divisor < AdaptiveKind.affinity.factor ∧ p.maxDepth.toNat ≤ max (start - 1) 1

end DynamicGrainsize

namespace WorkBalance

open DynamicGrainsize

variable {rg : Range R α} {kind : AdaptiveKind} {start depth : Nat}
  {c c' : Depths R DynamicGrainsize}

/-- What holds at the front of the pool when ranges are split. -/
def FrontFill (kind : AdaptiveKind) (start : Nat) (p : DynamicGrainsize) (x : R × Nat)
    (rest : List (R × Nat)) : Prop :=
  p.maxDepth.toNat + 1 + spent kind start p ≤ start + x.2 ∨
    p.maxDepth.toNat + spent kind start p ≤ start + x.2 ∧ rest = [] ∧ x.2 < p.maxDepth.toNat

/-- What holds at the front of the pool before `check_for_demand`. -/
def FrontDemand (rg : Range R α) (kind : AdaptiveKind) (start : Nat) (p : DynamicGrainsize)
    (x : R × Nat) (rest : List (R × Nat)) : Prop :=
  p.maxDepth.toNat + 1 + spent kind start p ≤ start + x.2 ∨
    p.maxDepth.toNat + spent kind start p ≤ start + x.2 ∧ rest = [] ∧
      rg.isDivisible x.1 = false

/-- The depth limit is bounded by the depth at the front of the pool, and depths by the number of
nested splits. -/
structure DepthInv (rg : Range R α) (kind : AdaptiveKind) (start depth : Nat)
    (c : Depths R DynamicGrainsize) : Prop where
  staircase : Staircase c.pool
  piece : ∀ x ∈ c.pool, x.2 ≤ c.partition.maxDepth.toNat ∧ x.2 ≤ depth ∧
    rg.DepthLe (depth - x.2) x.1
  pos : 0 < c.partition.maxDepth.toNat
  divisor : kind = .affinity → c.partition.divisor ≤ AdaptiveKind.affinity.factor
  fill : c.phase = .fill → ∀ x l, c.pool = x :: l → FrontFill kind start c.partition x l
  demand : c.phase = .demand → ∀ x l, c.pool = x :: l → FrontDemand rg kind start c.partition x l
  offered : ∀ child ∈ c.offered, rg.DepthLe depth child.1 ∧ OfferedOk kind start child.2

/-- In the loop the limit never reaches the last value of the counter. -/
theorem DepthInv.maxDepth_lt (h : DepthInv rg kind start depth c) (hphase : c.phase = .demand)
    (hne : c.pool ≠ []) (hbound : start + depth < 255) : c.partition.maxDepth.toNat < 255 := by
  obtain ⟨x, l, hpool⟩ := exists_cons_of_ne_nil hne
  have hx := h.piece x (by simp [hpool])
  rcases h.demand hphase x l hpool with hfront | ⟨hfront, -⟩ <;> omega

theorem DepthInv.split {offered : List (R × DynamicGrainsize)}
    (h : DepthInv rg kind start depth ⟨.fill, l ++ [(r, d)], p, offered⟩)
    (hd : d < p.maxDepth.toNat) (hdiv : rg.isDivisible r = true) :
    DepthInv rg kind start depth
      ⟨.fill, l ++ [((rg.split .split r).2, d + 1), ((rg.split .split r).1, d + 1)], p,
        offered⟩ := by
  obtain ⟨-, hle, hdepth⟩ := h.piece (r, d) (by simp)
  obtain ⟨hpos, hfirst, hsecond⟩ := hdepth.split hdiv .split
  constructor
  case staircase => exact h.staircase.split
  case piece =>
    intro x hx
    have hparts : ∀ part, rg.DepthLe (depth - d - 1) part →
        d + 1 ≤ p.maxDepth.toNat ∧ d + 1 ≤ depth ∧ rg.DepthLe (depth - (d + 1)) part :=
      fun part hpart => ⟨hd, by omega, hpart⟩
    rcases mem_append.mp hx with hx | hx
    · exact h.piece x (mem_append_left _ hx)
    · rcases mem_cons.mp hx with rfl | hx
      · exact hparts _ hsecond
      · obtain rfl := mem_singleton.mp hx
        exact hparts _ hfirst
  case pos => exact h.pos
  case divisor => exact h.divisor
  case fill =>
    intro _ x rest hpool
    left
    cases l with
    | nil =>
      cases hpool
      rcases h.fill rfl (r, d) [] rfl with hfront | ⟨hfront, -⟩ <;>
        simp only at hfront ⊢ <;> omega
    | cons y l =>
      obtain ⟨rfl, -⟩ := List.cons.inj hpool
      exact (h.fill rfl y (l ++ [(r, d)]) rfl).resolve_right fun hlast => by simp at hlast
  case demand => rintro ⟨⟩
  case offered => exact h.offered

theorem DepthInv.filled {offered : List (R × DynamicGrainsize)}
    (h : DepthInv rg kind start depth ⟨.fill, l ++ [(r, d)], p, offered⟩)
    (hfull : l.length + 1 < rangePoolSize → d < p.maxDepth.toNat → rg.isDivisible r = false) :
    DepthInv rg kind start depth ⟨.demand, l ++ [(r, d)], p, offered⟩ := by
  refine ⟨h.staircase, h.piece, h.pos, h.divisor, by rintro ⟨⟩, ?_, h.offered⟩
  intro _ x rest hpool
  rcases h.fill rfl x rest hpool with hfront | ⟨hfront, rfl, hlt⟩
  · exact .inl hfront
  · -- a single range that is not split although there is depth
    cases l with
    | nil =>
      cases hpool
      exact .inr ⟨hfront, rfl, hfull (show 1 < rangePoolSize by decide) hlt⟩
    | cons y l => simp at hpool

theorem DepthInv.run {offered : List (R × DynamicGrainsize)}
    (h : DepthInv rg kind start depth ⟨.demand, l ++ [(r, d)], p, offered⟩)
    (hbound : start + depth < 255)
    {demand : Bool} (hanswer : kind.mode.checkForDemand p peerStolen = (demand, q))
    (hdemand : demand = true → l = []) :
    DepthInv rg kind start depth ⟨if l = [] then .finished else .fill, l, q, offered⟩ := by
  have hlt := h.maxDepth_lt rfl (by simp) hbound
  -- the limit is not lowered, and it stays if there is no demand
  have hle : p.maxDepth.toNat ≤ q.maxDepth.toNat ∧
      q.divisor ≤ p.divisor := by
    cases demand with
    | false =>
      obtain ⟨hmax, hdiv⟩ := checkForDemand_false hanswer
      exact ⟨le_of_eq (congrArg UInt8.toNat hmax.symm), le_of_eq hdiv⟩
    | true =>
      obtain ⟨-, hdiv, ⟨hmax, -⟩ | ⟨-, hmax, -⟩⟩ :=
        checkForDemand_true (p := p) start h.pos hlt hanswer
      · exact ⟨hmax ▸ le_succ _, hdiv⟩
      · exact ⟨le_of_eq (congrArg UInt8.toNat hmax.symm), hdiv⟩
  constructor
  case staircase => exact h.staircase.dropLast
  case piece =>
    intro x hx
    obtain ⟨hx, hxdepth⟩ := h.piece x (mem_append_left _ hx)
    exact ⟨le_trans hx hle.1, hxdepth⟩
  case pos => exact lt_of_lt_of_le h.pos hle.1
  case divisor => exact fun hkind => le_trans hle.2 (h.divisor hkind)
  case fill =>
    rintro - x rest rfl
    obtain rfl : demand = false :=
      Bool.eq_false_iff.mpr fun htrue => by cases hdemand htrue
    obtain ⟨hmax, hdiv⟩ := checkForDemand_false hanswer
    have hfront := (h.demand rfl x (rest ++ [(r, d)]) rfl).resolve_right
      fun hlast => by simp at hlast
    left
    rw [hmax, spent, hdiv]
    exact hfront
  case demand =>
    intro hphase
    by_cases hl : l = [] <;> simp [hl] at hphase
  case offered => exact h.offered

theorem DepthInv.again {offered : List (R × DynamicGrainsize)}
    (h : DepthInv rg kind start depth ⟨.demand, [(r, d)], p, offered⟩)
    (hbound : start + depth < 255)
    (hdemand : kind.mode.checkForDemand p peerStolen = (true, q))
    (hd : d < q.maxDepth.toNat)
    (hdiv : rg.isDivisible r = true) :
    DepthInv rg kind start depth
      ⟨.fill, [(r, d)], q, offered⟩ := by
  have hlt := h.maxDepth_lt rfl (by simp) hbound
  have hfront := (h.demand rfl (r, d) [] rfl).resolve_right fun hlast => by simp [hdiv] at hlast
  obtain ⟨-, hdivisor, heffect⟩ := checkForDemand_true (p := p) start h.pos hlt hdemand
  obtain ⟨-, hpiece⟩ := h.piece (r, d) (by simp)
  constructor
  case staircase => trivial
  case piece =>
    intro x hx
    obtain rfl := mem_singleton.mp hx
    exact ⟨le_of_lt hd, hpiece⟩
  case pos => exact zero_lt_of_lt hd
  case divisor => exact fun hkind => le_trans hdivisor (h.divisor hkind)
  case fill =>
    intro _ x rest hpool
    cases hpool
    refine .inr ⟨?_, rfl, hd⟩
    simp only at hfront ⊢
    rcases heffect with ⟨hmax, hspent, -⟩ | ⟨-, hmax, hunspent, hspent⟩
    · omega
    · rw [hmax]
      omega
  case demand => rintro ⟨⟩
  case offered => exact h.offered

/-- The task that gets the front of the pool starts with no more depth than this one did. -/
theorem DepthInv.offeredOk {offered : List (R × DynamicGrainsize)} {base : Depth}
    (h : DepthInv rg kind start depth ⟨.demand, (r, d) :: l, p, offered⟩)
    (hbound : start + depth < 255) (hl : l ≠ []) (hbase : base.toNat = d)
    (hdemand : kind.mode.checkForDemand p peerStolen = (true, q)) :
    base ≤ q.maxDepth ∧
      OfferedOk kind start
        (q.split.2.alignDepth base) := by
  have hlt := h.maxDepth_lt rfl (by simp) hbound
  have hfront := (h.demand rfl (r, d) l rfl).resolve_right fun hlast => hl hlast.2.1
  obtain ⟨-, hdivisor, heffect⟩ := checkForDemand_true (p := p) start h.pos hlt hdemand
  obtain ⟨hle, -⟩ := h.piece (r, d) (by simp)
  simp only at hfront hle
  have hmono : p.maxDepth.toNat ≤ q.maxDepth.toNat := by
    rcases heffect with ⟨hmax, -⟩ | ⟨-, hmax, -⟩
    · exact hmax ▸ le_succ _
    · exact hmax ▸ le_rfl
  have halign : base ≤ q.maxDepth := by
    rw [UInt8.le_iff_toNat_le, hbase]
    exact le_trans hle hmono
  have hchild : (q.split.2.alignDepth base).maxDepth.toNat =
      q.maxDepth.toNat - d := by
    rw [← hbase]
    exact UInt8.toNat_sub_of_le _ _ halign
  refine ⟨halign, ?_, ?_⟩
  · intro hkind
    rw [hchild]
    rcases heffect with ⟨hmax, hspent, -⟩ | ⟨haffinity, -⟩
    · omega
    · rw [hkind] at haffinity
      cases haffinity
  · intro hkind
    have hfactor : AdaptiveKind.affinity.factor = 16 := rfl
    have hdivchild : (q.split.2.alignDepth base).divisor =
        q.divisor / 2 := rfl
    have hdivle := h.divisor hkind
    simp only at hdivle
    refine ⟨by omega, ?_⟩
    rw [hchild]
    rcases heffect with ⟨hmax, hspent, hone⟩ | ⟨-, hmax, -⟩
    · by_cases hstart : 2 ≤ start
      · have := hone hkind hstart
        omega
      · omega
    · rw [hmax]
      omega

theorem DepthInv.offer {offered : List (R × DynamicGrainsize)} {base : Depth}
    (h : DepthInv rg kind start depth ⟨.demand, (r, d) :: l, p, offered⟩)
    (hbound : start + depth < 255) (hl : l ≠ []) (hbase : base.toNat = d)
    (hdemand : kind.mode.checkForDemand p peerStolen = (true, q)) :
    DepthInv rg kind start depth
      ⟨.fill, l, q.split.1,
        (r, q.split.2.alignDepth base) :: offered⟩ := by
  have hlt := h.maxDepth_lt rfl (by simp) hbound
  have hfront := (h.demand rfl (r, d) l rfl).resolve_right fun hlast => hl hlast.2.1
  obtain ⟨hsplit, hdivisor, heffect⟩ := checkForDemand_true (p := p) start h.pos hlt hdemand
  simp only at hfront
  have hmono : p.maxDepth.toNat ≤ q.maxDepth.toNat := by
    rcases heffect with ⟨hmax, -⟩ | ⟨-, hmax, -⟩
    · exact hmax ▸ le_succ _
    · exact hmax ▸ le_rfl
  constructor
  case staircase => exact h.staircase.tail
  case piece =>
    intro x hx
    obtain ⟨hx, hxdepth⟩ := h.piece x (mem_cons_of_mem _ hx)
    exact ⟨le_trans hx hmono, hxdepth⟩
  case pos => exact lt_of_lt_of_le h.pos hmono
  case divisor =>
    intro hkind
    exact le_trans (div_le_self _ 2) (le_trans hdivisor (h.divisor hkind))
  case fill =>
    rintro - x rest rfl
    obtain ⟨hx, -⟩ := h.piece x (by simp)
    have hstep := h.staircase.1
    unfold FrontFill
    rw [hsplit]
    show q.maxDepth.toNat + 1 + spent kind start q ≤ start + x.2 ∨
      q.maxDepth.toNat + spent kind start q ≤ start + x.2 ∧ rest = [] ∧ x.2 < q.maxDepth.toNat
    simp only at hx hstep
    rcases heffect with ⟨hmax, hspent, -⟩ | ⟨-, hmax, hunspent, hspent⟩
    · -- the limit was increased
      rcases hstep with hdeeper | ⟨hlast, heq⟩
      · left
        omega
      · exact .inr ⟨by omega, hlast, by omega⟩
    · rw [hmax]
      rcases hstep with hdeeper | ⟨hlast, heq⟩
      · left
        omega
      · by_cases hroom : x.2 < p.maxDepth.toNat
        · exact .inr ⟨by omega, hlast, hroom⟩
        · left
          omega
  case demand => rintro ⟨⟩
  case offered =>
    intro child hchild
    rcases mem_cons.mp hchild with rfl | hchild
    · obtain ⟨-, hle, hdepth⟩ := h.piece (r, d) (by simp)
      exact ⟨hdepth.mono (sub_le _ _), (h.offeredOk hbound hl hbase hdemand).2⟩
    · exact h.offered child hchild

theorem DepthInv.move (h : DepthInv rg kind start depth c) (hbound : start + depth < 255)
    (hmove : c.Move rg kind.mode c') : DepthInv rg kind start depth c' := by
  have hmode : ∀ p, kind.mode.maxDepth p = p.maxDepth := by
    intro p
    cases kind <;> rfl
  have hsplit : ∀ p, kind.mode.split p = p.split := by
    intro p
    cases kind <;> rfl
  have halign : ∀ p base, kind.mode.alignDepth p base = p.alignDepth base := by
    intro p base
    cases kind <;> rfl
  cases hmove with
  | split hd hdiv => exact h.split (hmode _ ▸ hd) hdiv
  | filled hfull => exact h.filled fun hroom hd => hfull hroom (hmode _ ▸ hd)
  | offer peerStolen base hl hbase hdemand =>
    rw [hsplit, halign]
    exact h.offer hbound hl hbase (Prod.ext hdemand rfl)
  | again peerStolen hdemand hd hdiv =>
    exact h.again hbound (Prod.ext hdemand rfl) (hmode _ ▸ hd) hdiv
  | run peerStolen hdemand => exact h.run hbound rfl hdemand

/-- While a task balances, either it has a pool with bounded depths, or it ran its range as a
whole. -/
theorem State.Run.depthInv {s : State R DynamicGrainsize} (hdepth : rg.DepthLe depth r)
    (hstart : rg.isDivisible r = true → p.maxDepth ≠ 0 → p.maxDepth.toNat + depth < 255 ∧
      (kind = .affinity → 0 < p.divisor ∧ p.divisor ≤ AdaptiveKind.affinity.factor))
    (run : s.Run rg kind.mode r p) :
    (∃ c, s.ShowsDepths c ∧ DepthInv rg kind p.maxDepth.toNat depth c ∧
        rg.isDivisible r = true ∧ p.maxDepth ≠ 0) ∨
      s.phase = .finished ∧ s.offered = [] := by
  have hmode : kind.mode.maxDepth p = p.maxDepth := by
    cases kind <;> rfl
  refine Transition.run_preserves
    (P := fun s => (∃ c, s.ShowsDepths c ∧ DepthInv rg kind p.maxDepth.toNat depth c ∧
      rg.isDivisible r = true ∧ p.maxDepth ≠ 0) ∨ s.phase = .finished ∧ s.offered = []) ?_ run ?_
  · rintro s t (⟨c, hs, hc, hpool⟩ | ⟨hphase, -⟩) ⟨peerStolen, hstep⟩
    · obtain ⟨c', ht, hmove⟩ := hs.step hstep
      exact .inl ⟨c', ht, hc.move (hstart hpool.1 hpool.2).1 hmove, hpool⟩
    · rw [State.step_finished hphase] at hstep
      cases hstep
  · rw [State.start, hmode]
    split
    case isTrue => exact .inr ⟨rfl, rfl⟩
    case isFalse hpool =>
      rw [not_or, Bool.not_eq_false] at hpool
      obtain ⟨hbound, hdivisor⟩ := hstart hpool.1 hpool.2
      have hpos : 0 < p.maxDepth.toNat := by
        apply pos_of_ne_zero
        intro hzero
        exact hpool.2 (UInt8.toNat_inj.mp hzero)
      have hspent : spent kind p.maxDepth.toNat p = 0 := by
        rw [spent, if_neg]
        rintro ⟨hkind, -, hzero⟩
        exact absurd hzero (Nat.ne_of_gt (hdivisor hkind).1)
      refine .inl ⟨⟨.fill, [(r, 0)], p, []⟩,
        ⟨RangeVector.holdsDepths_new r, rfl, rfl, rfl, by simp⟩, ?_, hpool⟩
      constructor
      case staircase => trivial
      case piece =>
        intro x hx
        obtain rfl := mem_singleton.mp hx
        exact ⟨zero_le _, zero_le _, hdepth⟩
      case pos => exact hpos
      case divisor => exact fun hkind => (hdivisor hkind).2
      case fill =>
        intro _ x rest hcons
        cases hcons
        exact .inr ⟨by rw [hspent], rfl, hpos⟩
      case demand => rintro ⟨⟩
      case offered => simp

/-- The invariant keeps the counters of the next step from wrapping. -/
theorem DepthInv.noWrap {s : State R DynamicGrainsize} (hs : s.ShowsDepths c)
    (h : DepthInv rg kind start depth c) (hbound : start + depth < 255) :
    s.NoWrap rg kind.mode := by
  obtain ⟨phase, pool, partition, offered⟩ := c
  obtain ⟨hpool, rfl, rfl, hphase, hfinished⟩ := hs
  obtain rfl := hphase
  constructor
  case split =>
    intro hfill _ hdivisible
    have hlt : s.pool.backDepth < s.partition.maxDepth := by
      rw [RangeVector.isDivisible, Bool.and_eq_true, decide_eq_true_iff] at hdivisible
      exact hdivisible.1
    rw [UInt8.lt_iff_toNat_lt] at hlt ⊢
    have hmax := s.partition.maxDepth.toNat_lt
    rw [UInt8.toNat_add]
    show _ < (s.pool.backDepth.toNat + 1) % 2 ^ 8
    rw [mod_eq_of_lt (by omega)]
    exact lt_succ_self _
  case demand =>
    intro peerStolen hdemand
    have hne : pool ≠ [] := by
      intro hnil
      have := hfinished.mpr hnil
      rw [hdemand] at this
      cases this
    have hlt := h.maxDepth_lt hdemand hne hbound
    rw [UInt8.le_iff_toNat_le]
    cases hanswer : kind.mode.checkForDemand s.partition peerStolen with
    | mk demand q =>
      cases demand with
      | false => exact le_of_eq (congrArg UInt8.toNat (checkForDemand_false hanswer).1.symm)
      | true =>
        obtain ⟨-, -, ⟨hmax, -⟩ | ⟨-, hmax, -⟩⟩ :=
          checkForDemand_true (p := s.partition) start h.pos hlt hanswer
        · exact hmax ▸ le_succ _
        · exact hmax ▸ le_rfl
  case align =>
    intro peerStolen hdemand hmany htrue
    rw [hpool.contains.size, length_map] at hmany
    obtain ⟨⟨r, d⟩, y, l, rfl⟩ : ∃ x y l, pool = x :: y :: l := by
      rcases pool with - | ⟨x, - | ⟨y, l⟩⟩
      · exact absurd hmany (not_lt_zero 1)
      · exact absurd hmany (lt_irrefl 1)
      · exact ⟨x, y, l, rfl⟩
    have hsplit : ∀ p, (kind.mode.split p).2.maxDepth = p.maxDepth := by
      intro p
      cases kind <;> rfl
    rw [hsplit]
    rw [hdemand] at h
    exact (h.offeredOk hbound (by simp) hpool.frontDepth (Prod.ext htrue rfl)).1

end WorkBalance

end OneTbb.Algorithms
