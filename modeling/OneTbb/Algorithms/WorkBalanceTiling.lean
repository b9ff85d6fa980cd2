import Mathlib.Data.List.Induction
import OneTbb.Algorithms.WorkBalance

/-!
# The pieces of a balanced task tile its range

The ring of a task holds a list of ranges. In terms of that list a step of `work_balance` splits
the last range, runs the last range, or offers the first one, and the pieces stay in order.
-/

namespace OneTbb.Algorithms

open Function List Option

variable {R α P : Type*}

namespace RangeVector

variable {rg : Range R α} {n : Nat} {v : RangeVector R} {l : List R} {r : R}

/-- The pool holds the ranges from the front to the back. -/
structure Contains (n : Nat) (v : RangeVector R) (l : List R) : Prop where
  size : v.size = l.length
  tail_lt : v.tail < n
  head_lt : v.head < n
  head_succ : (v.head + 1) % n = (v.tail + l.length) % n
  holds : RingDeque.Holds n v.tail v.pool l

theorem contains_new (hn : 0 < n) (r : R) : (new r).Contains n [r] := by
  have hempty : RingDeque.Holds n 0 (fun _ => (none : Option R)) [] :=
    ⟨Nat.zero_le n, fun _ _ => rfl⟩
  have hpush := hempty.pushBack hn r
  rw [length_nil, add_zero, Nat.zero_mod] at hpush
  exact ⟨rfl, hn, hn, rfl, hpush⟩

/-- The head is the slot of the last range. -/
theorem Contains.head_eq (h : v.Contains n (l ++ [r])) : v.head = (v.tail + l.length) % n := by
  have hsucc := h.head_succ
  rw [length_append, length_singleton, ← add_assoc] at hsucc
  have hmod : v.head ≡ v.tail + l.length [MOD n] := Nat.ModEq.add_right_cancel' 1 hsucc
  rw [← Nat.mod_eq_of_lt h.head_lt]
  exact hmod

theorem Contains.back (h : v.Contains n (l ++ [r])) : v.back = some r := by
  rw [RangeVector.back, h.head_eq]
  exact h.holds.back

theorem Contains.front (h : v.Contains n (r :: l)) : v.front = some r := by
  rw [RangeVector.front, ← Nat.mod_eq_of_lt h.tail_lt]
  exact h.holds.front

theorem destroy_eq {pool : Nat → Option R} {i : Nat} (h : pool i = some r) :
    destroy pool i = some (update pool i none) := by
  rw [destroy, h]

theorem construct_eq {pool : Nat → Option R} {i : Nat} (h : pool i = none) (r : R) :
    construct pool i r = some (update pool i (some r)) := by
  rw [construct, h]

/-- What one split does when the next slot is empty. -/
theorem splitBack_eq (rg : Range R α) (hback : v.pool v.head = some r)
    (hnext : v.pool ((v.head + 1) % n) = none) (hne : v.head ≠ (v.head + 1) % n) :
    v.splitBack rg n = some
      { v with
        head := (v.head + 1) % n
        pool := update
          (update v.pool v.head (some (rg.split .split r).2))
          ((v.head + 1) % n) (some (rg.split .split r).1)
        depth := update (update v.depth v.head (v.depth v.head + 1))
          ((v.head + 1) % n) (v.depth v.head + 1)
        size := v.size + 1 } := by
  simp only [RangeVector.splitBack, hback, bind_eq_bind, bind_some]
  generalize (v.head + 1) % n = next at hnext hne
  have hcopied : update v.pool next (some r) v.head = some r := by
    rw [update_of_ne hne, hback]
  -- the last write to each of the two slots counts
  have hpool : ∀ a b : R,
      update (update (update (update v.pool next (some r))
        v.head none) next (some a)) v.head (some b) =
      update (update v.pool v.head (some b)) next (some a) := by
    intro a b
    rw [Function.update_comm hne.symm, Function.update_idem, Function.update_comm hne.symm,
      Function.update_idem]
  rw [construct_eq hnext, bind_some, destroy_eq hcopied, bind_some,
    construct_eq (by rw [update_of_ne hne, update_self]), bind_some,
    hpool]
  rfl

/-- The last range is replaced by its two parts, the second one before the first. -/
theorem Contains.splitBack (rg : Range R α) (h : v.Contains n (l ++ [r]))
    (hroom : l.length + 1 < n) : ∃ v', v.splitBack rg n = some v' ∧
      v'.Contains n (l ++ [(rg.split .split r).2, (rg.split .split r).1]) := by
  have hhead : (v.head + 1) % n = (v.tail + (l.length + 1)) % n := by
    rw [h.head_succ, length_append, length_singleton]
  have hne : v.head ≠ (v.head + 1) % n := by
    rw [hhead, h.head_eq]
    exact RingDeque.slot_ne (by omega) hroom (ne_of_lt (Nat.lt_succ_self _))
  have hnext : v.pool ((v.head + 1) % n) = none := by
    rw [h.head_succ]
    exact h.holds.next (by simpa using hroom)
  refine ⟨_, splitBack_eq rg h.back hnext hne, ?_⟩
  constructor
  case size => simp [h.size]
  case tail_lt => exact h.tail_lt
  case head_lt => exact Nat.mod_lt _ (by omega)
  case head_succ =>
    rw [hhead, Nat.mod_add_mod]
    simp [add_assoc]
  case holds =>
    -- the second part takes the old slot, and then the first part takes the next one
    have hright := h.holds.popBack.pushBack (by omega) (rg.split .split r).2
    rw [Function.update_idem, ← h.head_eq] at hright
    have hleft := hright.pushBack (by simpa using hroom) (rg.split .split r).1
    rw [length_append, length_singleton, ← hhead, append_assoc] at hleft
    exact hleft

theorem Contains.popBack (h : v.Contains n (l ++ [r])) :
    ∃ v', v.popBack n = some v' ∧ v'.Contains n l := by
  have hpos : 0 < n := Nat.zero_lt_of_lt h.tail_lt
  have hdestroy : destroy v.pool v.head = some (update v.pool v.head none) :=
    destroy_eq h.back
  refine ⟨{ v with
    pool := update v.pool v.head none
    size := v.size - 1
    head := (v.head + n - 1) % n }, ?_, ?_⟩
  · rw [RangeVector.popBack, hdestroy]
    rfl
  · constructor
    case size => simp [h.size]
    case tail_lt => exact h.tail_lt
    case head_lt => exact Nat.mod_lt _ hpos
    case head_succ =>
      rw [Nat.mod_add_mod, show v.head + n - 1 + 1 = v.head + n by omega, Nat.add_mod_right,
        Nat.mod_eq_of_lt h.head_lt]
      exact h.head_eq
    case holds =>
      have hpop := h.holds.popBack
      rw [← h.head_eq] at hpop
      exact hpop

theorem Contains.popFront (h : v.Contains n (r :: l)) :
    ∃ v', v.popFront n = some v' ∧ v'.Contains n l := by
  have hdestroy : destroy v.pool v.tail = some (update v.pool v.tail none) :=
    destroy_eq h.front
  refine ⟨{ v with
    pool := update v.pool v.tail none
    size := v.size - 1
    tail := (v.tail + 1) % n }, ?_, ?_⟩
  · rw [RangeVector.popFront, hdestroy]
    rfl
  · constructor
    case size => simp [h.size]
    case tail_lt => exact Nat.mod_lt _ (Nat.zero_lt_of_lt h.tail_lt)
    case head_lt => exact h.head_lt
    case head_succ =>
      rw [Nat.mod_add_mod, add_assoc, add_comm 1]
      exact h.head_succ
    case holds =>
      have hpop := h.holds.popFront
      rw [Nat.mod_eq_of_lt h.tail_lt] at hpop
      exact hpop

/-- The back of a pool with a range in it decides whether the pool is divisible. -/
theorem Contains.isDivisible_back (h : v.Contains n (l ++ [r])) {maxDepth : Depth}
    (hdiv : v.isDivisible rg maxDepth = true) : rg.isDivisible r = true := by
  rw [RangeVector.isDivisible, h.back, Bool.and_eq_true] at hdiv
  exact hdiv.2

end RangeVector

namespace WorkBalance

/-- The pieces of a range: run, in the pool from front to back, and offered, the last one first. -/
structure Pieces (R : Type*) where
  ran : List R
  pool : List R
  offered : List R

/-- What a step of `work_balance` may do with the pieces. -/
inductive Pieces.Move (rg : Range R α) : Pieces R → Pieces R → Prop
  | split {ran pool offered r} (hr : rg.isDivisible r = true)
      (hroom : pool.length + 1 < rangePoolSize) :
      Move rg ⟨ran, pool ++ [r], offered⟩
        ⟨ran, pool ++ [(rg.split .split r).2, (rg.split .split r).1], offered⟩
  | keep {pieces} (hpool : pieces.pool ≠ []) : Move rg pieces pieces
  | run {ran pool offered r} : Move rg ⟨ran, pool ++ [r], offered⟩ ⟨ran ++ [r], pool, offered⟩
  | offer {ran pool offered r} (hpool : pool ≠ []) :
      Move rg ⟨ran, r :: pool, offered⟩ ⟨ran, pool, r :: offered⟩

/-- The pieces from the first iteration to the last. -/
def Pieces.inOrder (pieces : Pieces R) : List R :=
  pieces.ran ++ pieces.pool.reverse ++ pieces.offered

variable {rg : Range R α} {range : R}

theorem Pieces.Move.tiles {a b : Pieces R} (h : Move rg a b) (ha : rg.Tiles range a.inOrder) :
    rg.Tiles range b.inOrder := by
  cases h with
  | @split ran pool offered r hr hroom =>
    have hold : Pieces.inOrder ⟨ran, pool ++ [r], offered⟩ =
        ran ++ r :: (pool.reverse ++ offered) := by
      simp [Pieces.inOrder]
    have hnew : Pieces.inOrder
        ⟨ran, pool ++ [(rg.split .split r).2, (rg.split .split r).1], offered⟩ =
          ran ++ (rg.split .split r).1 :: (rg.split .split r).2 :: (pool.reverse ++ offered) := by
      simp [Pieces.inOrder]
    rw [hold] at ha
    rw [hnew]
    exact ha.split .split hr
  | keep => exact ha
  | run | offer =>
    rw [Pieces.inOrder] at ha ⊢
    simpa using ha

namespace State

variable {mode : PartitionMode P} {p : P} {s s' : State R P} {pieces : Pieces R}

/-- The ring of the state holds the pool of the pieces, and the loop ends with the last range. -/
structure Represents (s : State R P) (pieces : Pieces R) : Prop where
  contains : s.pool.Contains rangePoolSize pieces.pool
  ran : s.ran = pieces.ran
  offered : s.offered.map Prod.fst = pieces.offered
  finished : s.phase = .finished ↔ pieces.pool = []

theorem represents_start (rg : Range R α) (mode : PartitionMode P) (range : R) (p : P) :
    ∃ pieces, (start rg mode range p).Represents pieces ∧ pieces.inOrder = [range] := by
  rw [start]
  split
  case isTrue =>
    refine ⟨⟨[range], [], []⟩, ⟨?_, rfl, rfl, ⟨fun _ => rfl, fun _ => rfl⟩⟩, rfl⟩
    exact ⟨rfl, Nat.succ_pos 7, Nat.lt_succ_self 7, by simp [noPool, rangePoolSize],
      ⟨Nat.zero_le _, fun _ _ => rfl⟩⟩
  case isFalse =>
    refine ⟨⟨[], [range], []⟩, ⟨?_, rfl, rfl, ?_⟩, rfl⟩
    · exact RangeVector.contains_new (by decide) range
    · constructor <;> rintro ⟨⟩

/-- The condition of the loop sees whether a range is left. -/
theorem represents_loop (hpool : s.pool.Contains rangePoolSize pieces.pool)
    (hran : s.ran = pieces.ran) (hoffered : s.offered.map Prod.fst = pieces.offered) :
    s.loop.Represents pieces := by
  refine ⟨hpool, hran, hoffered, ?_⟩
  rw [← length_eq_zero_iff, ← hpool.size, loop]
  split
  case isTrue hzero => exact ⟨fun _ => hzero, fun _ => rfl⟩
  case isFalse hpos => exact ⟨fun h => (by cases h), fun h => absurd h hpos⟩

theorem Represents.exists_back (h : s.Represents pieces) (hphase : s.phase ≠ .finished) :
    ∃ l r, pieces.pool = l ++ [r] :=
  (eq_nil_or_concat' pieces.pool).resolve_left fun hnil => hphase (h.finished.mpr hnil)

theorem Represents.runBack {ran l offered : List R} {r : R}
    (h : s.Represents ⟨ran, l ++ [r], offered⟩) :
    ∃ s', s.runBack = some s' ∧ s'.Represents ⟨ran ++ [r], l, offered⟩ := by
  obtain ⟨pool, hpop, hpool⟩ := h.contains.popBack
  refine ⟨_, by rw [State.runBack, h.contains.back, hpop], ?_⟩
  exact represents_loop hpool (congrArg (· ++ [r]) h.ran) h.offered

theorem Represents.offerFront (mode : PartitionMode P) {ran l offered : List R} {r : R}
    (h : s.Represents ⟨ran, r :: l, offered⟩) :
    ∃ s', s.offerFront mode = some s' ∧ s'.Represents ⟨ran, l, r :: offered⟩ := by
  obtain ⟨pool, hpop, hpool⟩ := h.contains.popFront
  refine ⟨_, by rw [State.offerFront, h.contains.front, hpop], ?_⟩
  exact represents_loop hpool h.ran (congrArg (r :: ·) h.offered)

section

variable (rg mode) (peerStolen : Bool) (h : s.Represents pieces)
include h

/-- In `split_to_fill` the pool is split as long as there is room and depth. -/
theorem Represents.fill (hphase : s.phase = .fill) :
    ∃ s' pieces', s.step rg mode peerStolen = some s' ∧ s'.Represents pieces' ∧
      pieces.Move rg pieces' := by
  obtain ⟨ran, pool, offered⟩ := pieces
  obtain ⟨l, r, rfl⟩ := h.exists_back (by simp [hphase])
  simp only [step, hphase]
  split
  case isTrue hcond =>
    have hroom : l.length + 1 < rangePoolSize := by
      have hsize := h.contains.size
      rw [length_append, length_singleton] at hsize
      rw [← hsize]
      exact hcond.1
    obtain ⟨v', hsplit, hv'⟩ := h.contains.splitBack rg hroom
    refine ⟨{ s with pool := v', phase := .fill }, _, by rw [hsplit, map_some],
      ⟨?_, ?_, ?_, ?_⟩, .split (h.contains.isDivisible_back hcond.2) hroom⟩
    · exact hv'
    · exact h.ran
    · exact h.offered
    · simp
  case isFalse =>
    refine ⟨_, ⟨ran, l ++ [r], offered⟩, rfl, ⟨h.contains, h.ran, h.offered, ?_⟩,
      .keep (by simp)⟩
    simp

/-- After the answer about demand a range is offered or run, or the loop goes on to split. -/
theorem Represents.demand (hphase : s.phase = .demand) :
    ∃ s' pieces', s.step rg mode peerStolen = some s' ∧ s'.Represents pieces' ∧
      pieces.Move rg pieces' := by
  obtain ⟨ran, pool, offered⟩ := pieces
  obtain ⟨l, r, rfl⟩ := h.exists_back (by simp [hphase])
  simp only [step, hphase]
  have hs : State.Represents
      ⟨s.pool, (mode.checkForDemand s.partition peerStolen).2, s.ran, s.offered, .demand⟩
      ⟨ran, l ++ [r], offered⟩ := ⟨h.contains, h.ran, h.offered, by simp⟩
  obtain ⟨s', hstep, hs'⟩ := hs.runBack
  split
  case isFalse => exact ⟨s', _, hstep, hs', .run⟩
  case isTrue =>
    split
    case isTrue hmany =>
      -- the front of the pool is not its back
      have hsize := h.contains.size
      cases l with
      | nil =>
        rw [hsize] at hmany
        cases hmany with
        | step h => cases h
      | cons first rest =>
        obtain ⟨t, hoffer, ht⟩ := hs.offerFront mode
        exact ⟨t, _, hoffer, ht, .offer (by simp)⟩
    case isFalse =>
      split
      case isTrue =>
        exact ⟨_, _, rfl, represents_loop h.contains h.ran h.offered, .keep (by simp)⟩
      case isFalse => exact ⟨s', _, hstep, hs', .run⟩

/-- Every step before the end succeeds and moves the pieces. -/
theorem Represents.step (hphase : s.phase ≠ .finished) :
    ∃ s' pieces', s.step rg mode peerStolen = some s' ∧ s'.Represents pieces' ∧
      pieces.Move rg pieces' := by
  cases hcase : s.phase with
  | fill => exact h.fill rg mode peerStolen hcase
  | demand => exact h.demand rg mode peerStolen hcase
  | finished => exact absurd hcase hphase

end

theorem step_finished (hphase : s.phase = .finished) (peerStolen : Bool) :
    s.step rg mode peerStolen = none := by
  rw [State.step, hphase]

theorem Run.represents (run : s.Run rg mode range p) :
    ∃ pieces, s.Represents pieces ∧ rg.Tiles range pieces.inOrder := by
  refine Transition.run_preserves
    (P := fun s => ∃ pieces, s.Represents pieces ∧ rg.Tiles range pieces.inOrder) ?_ run ?_
  · rintro s t ⟨pieces, hs, htiles⟩ ⟨peerStolen, hstep⟩
    by_cases hphase : s.phase = .finished
    · rw [step_finished hphase] at hstep
      cases hstep
    · obtain ⟨u, pieces', hu, hpieces', hmove⟩ := hs.step rg mode peerStolen hphase
      cases hstep.symm.trans hu
      exact ⟨pieces', hpieces', hmove.tiles htiles⟩
  · obtain ⟨pieces, hpieces, hwhole⟩ := represents_start rg mode range p
    refine ⟨pieces, hpieces, ?_⟩
    rw [hwhole]
    exact .whole

theorem Represents.pooled_eq (h : s.Represents pieces) : s.pooled = pieces.pool := by
  have hslots : ∀ i ∈ List.range pieces.pool.length,
      s.pool.pool ((s.pool.tail + i) % rangePoolSize) = pieces.pool[i]? := by
    intro i hi
    rw [mem_range] at hi
    exact h.contains.holds.slot_eq i (lt_of_lt_of_le hi h.contains.holds.length_le)
  rw [State.pooled, h.contains.size, filterMap_congr hslots]
  generalize pieces.pool = l
  induction l using List.reverseRecOn with
  | nil => rfl
  | append_singleton l r ih =>
    have hl : ∀ i ∈ List.range l.length, (l ++ [r])[i]? = l[i]? := by
      intro i hi
      exact List.getElem?_append_left (mem_range.mp hi)
    rw [length_append, length_singleton, range_succ, filterMap_append,
      filterMap_congr hl, ih]
    simp

theorem Represents.pieces_eq (h : s.Represents pieces) : s.pieces = pieces.inOrder := by
  rw [State.pieces, h.pooled_eq, h.ran, h.offered]
  rfl

/-- A range leaves the pool for good by being run or offered, and the last one is run. -/
theorem Represents.last_run (h : s.Represents pieces) (hphase : s.phase ≠ .finished)
    {peerStolen : Bool} (hstep : s.step rg mode peerStolen = some s')
    (hfinished : s'.phase = .finished) :
    ∃ r, s.pooled = [r] ∧ s'.ran = s.ran ++ [r] ∧
      s'.offered.map Prod.fst = s.offered.map Prod.fst := by
  obtain ⟨u, pieces', hu, hpieces', hmove⟩ := h.step rg mode peerStolen hphase
  cases hstep.symm.trans hu
  have hnil := hpieces'.finished.mp hfinished
  rw [h.pooled_eq, hpieces'.ran, h.ran, hpieces'.offered, h.offered]
  cases hmove with
  | split => simp at hnil
  | keep hpool => exact absurd hnil hpool
  | @run ran pool offered r =>
    subst hnil
    exact ⟨r, rfl, rfl, rfl⟩
  | offer hpool => exact absurd hnil hpool

end State

open State in
/-- Whatever the partitioner answers, the ranges run so far, the pool from back to front and the
offered ranges in reverse order tile the range in order. The pool has at most eight ranges, and it
has one until the last range is run. -/
theorem workBalance_tiles (rg : Range R α) (mode : PartitionMode P) (range : R) (p : P)
    {s : State R P} (run : s.Run rg mode range p) :
    rg.Tiles range s.pieces ∧ s.pieces.flatMap rg.elems = rg.elems range ∧
      s.pooled.length = s.pool.size ∧ s.pool.size ≤ 8 ∧
      (s.phase = .finished ↔ s.pool.size = 0) ∧
      (s.phase ≠ .finished → ∀ peerStolen, ∃ s', s.step rg mode peerStolen = some s' ∧
        (s'.phase = .finished → ∃ r, s.pooled = [r] ∧ s'.ran = s.ran ++ [r] ∧
          s'.offered.map Prod.fst = s.offered.map Prod.fst)) := by
  obtain ⟨pieces, hs, htiles⟩ := run.represents
  rw [hs.pieces_eq]
  refine ⟨htiles, htiles.elems_eq, ?_, ?_, ?_, ?_⟩
  · rw [hs.pooled_eq, hs.contains.size]
  · rw [hs.contains.size]
    exact hs.contains.holds.length_le
  · rw [hs.contains.size, length_eq_zero_iff]
    exact hs.finished
  · intro hphase peerStolen
    obtain ⟨s', -, hstep, -, -⟩ := hs.step rg mode peerStolen hphase
    exact ⟨s', hstep, hs.last_run hphase hstep⟩

/-- A task that makes an affinitized task and a balancing task before it runs what is left. -/
def balancedTask : DynamicGrainsize := ⟨2, .pass, 2⟩

/-- The range of eight is cut in three, and two of the pieces are offered. -/
theorem workBalance_tiles_eight : ∃ s : State (List Nat) DynamicGrainsize,
    s.Run listRange DynamicGrainsize.affinity (List.range 8) balancedTask ∧
      s.phase = .finished ∧ s.offered.length = 2 ∧
      s.pieces.flatMap listRange.elems = listRange.elems (List.range 8) := by
  have hrun : ((List.replicate 8 false).foldlM
      (fun (s : State (List Nat) DynamicGrainsize) stolen =>
        s.step listRange DynamicGrainsize.affinity stolen)
      (State.start listRange DynamicGrainsize.affinity (List.range 8) balancedTask)).map
        (fun s => (s.phase, s.offered.length)) = some (.finished, 2) := by
    decide +kernel
  obtain ⟨s, hs, hproj⟩ := map_eq_some_iff.mp hrun
  obtain ⟨hphase, hlength⟩ := Prod.mk.inj hproj
  have run : s.Run listRange DynamicGrainsize.affinity (List.range 8) balancedTask :=
    Transition.run_of_foldlM hs
  exact ⟨s, run, hphase, hlength, (workBalance_tiles _ _ _ _ run).2.1⟩

end WorkBalance

end OneTbb.Algorithms
