import Mathlib.Data.Finset.Basic
import Mathlib.Data.Nat.Find
import OneTbb.Library.Ring

/-!
# The search for an isolated critical task

An arena keeps its critical tasks in lanes. `pop_specific` goes backwards through
the lanes, from the one the slot used last, for a task of a given isolation. The
hint of a slot starts as the index of the slot, and an arena may have more slots
than lanes.
-/

namespace OneTbb.Scheduler.TaskStream

open Function List Option Nat

/-- A task in a lane. -/
structure CriticalTask where
  name : Nat
  isolation : Nat
  deriving DecidableEq, Repr

/-- The number of lanes `initialize` makes, where the population word has
`populationBits` bits. -/
def numLanes (populationBits nLanes : Nat) : Nat :=
  if populationBits ≤ nLanes then populationBits
  else if 2 < nLanes then 2 ^ ((nLanes - 1).log2 + 1) else 2

theorem numLanes_eq_two_pow {populationBits : Nat}
    (hbits : populationBits = 64 ∨ populationBits = 32) (nLanes : Nat) :
    ∃ j ≤ 6, numLanes populationBits nLanes = 2 ^ j := by
  unfold numLanes
  split
  · obtain rfl | rfl := hbits
    · exact ⟨6, by decide⟩
    · exact ⟨5, by decide⟩
  · split
    case isTrue hlt hgt =>
      have hlog : (nLanes - 1).log2 < 6 := (log2_lt (by omega)).mpr (by omega)
      exact ⟨_, hlog, rfl⟩
    case isFalse => exact ⟨1, by decide⟩

/-- A stream of the arena with `numSlots` slots. The population is the set of the bits
that are set, and `locked` are the lanes other threads hold. A lane whose lock is free
has its bit set if it is not empty. -/
structure Stream where
  numSlots : Nat
  populationBits : Nat
  /-- `population_t` is `uintptr_t` -/
  populationBits_eq : populationBits = 64 ∨ populationBits = 32
  population : Finset Nat
  lanes : Nat → List (Option CriticalTask)
  locked : Nat → Bool
  populated : ∀ i, lanes i ≠ [] → locked i = false → i ∈ population

/-- `look_specific`: the last task of the isolation, and the lane without it. A task
that is not at the end leaves a hole. -/
def lookSpecific (isolation : Nat) :
    List (Option CriticalTask) → Option (CriticalTask × List (Option CriticalTask))
  | [] => none
  | entry :: rest =>
    match lookSpecific isolation rest, entry with
    | some (task, left), _ => some (task, entry :: left)
    | none, some task =>
      if task.isolation = isolation then
        some (task, if rest.isEmpty then [] else none :: rest)
      else none
    | none, none => none

section Lane

variable {isolation : Nat} {queue : List (Option CriticalTask)}

theorem lookSpecific_mem {task : CriticalTask} {left : List (Option CriticalTask)}
    (h : lookSpecific isolation queue = some (task, left)) :
    some task ∈ queue ∧ task.isolation = isolation := by
  induction queue generalizing left with
  | nil => cases h
  | cons entry rest ih =>
    unfold lookSpecific at h
    split at h
    case h_1 task' left' hrest =>
      cases h
      obtain ⟨hmem, hiso⟩ := ih hrest
      exact ⟨mem_cons_of_mem _ hmem, hiso⟩
    case h_2 =>
      obtain ⟨hiso, heq⟩ := ite_none_right_eq_some.mp h
      cases heq
      exact ⟨mem_cons_self, hiso⟩
    case h_3 => cases h

theorem lookSpecific_ne_none {task : CriticalTask} (hmem : some task ∈ queue)
    (hiso : task.isolation = isolation) : lookSpecific isolation queue ≠ none := by
  induction queue with
  | nil => cases hmem
  | cons entry rest ih =>
    unfold lookSpecific
    obtain rfl | hrest := mem_cons.mp hmem
    · split <;> simp_all
    · split <;> simp_all

end Lane

namespace Stream

variable (s : Stream) (isolation hint : Nat)

/-- `N` -/
def numberOfLanes : Nat := numLanes s.populationBits s.numSlots

/-- The lane before a lane, in unsigned arithmetic. -/
def previousLane (idx : Nat) : Nat := (idx + 2 ^ 32 - 1) % 2 ^ 32 &&& s.numberOfLanes - 1

/-- The body of the loop of `pop_specific`: a lane with its bit set and a free lock is
searched, and its bit is cleared when its last entry is taken. -/
def examine (idx : Nat) : Option (CriticalTask × Stream) :=
  if h : idx ∈ s.population ∧ s.locked idx = false then
    (lookSpecific isolation (s.lanes idx)).map fun found =>
      (found.1, { s with
        lanes := update s.lanes idx found.2
        population := if found.2.isEmpty then s.population.erase idx else s.population
        populated := by
          intro i hne hfree
          by_cases hi : i = idx
          · subst hi
            rw [update_self] at hne
            rw [if_neg (by simpa using hne)]
            exact h.1
          · rw [update_of_ne hi] at hne
            have hmem := s.populated i hne hfree
            split
            · exact Finset.mem_erase.mpr ⟨hi, hmem⟩
            · exact hmem })
  else none

/-- What a search leaves and returns, with the lanes it has examined. -/
structure Search where
  stream : Stream
  lastUsedLane : Nat
  result : Option CriticalTask
  examined : List Nat

/-- The loop of `pop_specific`, for as many rounds as there is fuel. -/
def popLoop : Nat → Nat → Option Search
  | 0, _ => none
  | fuel + 1, idx =>
    match s.examine isolation idx with
    | some (task, s') => some ⟨s', idx, some task, [idx]⟩
    | none =>
      if s.population ≠ ∅ ∧ s.previousLane idx ≠ hint then
        (popLoop fuel (s.previousLane idx)).map fun search =>
          { search with examined := idx :: search.examined }
      else some ⟨s, s.previousLane idx, none, [idx]⟩

/-- `pop_specific` -/
def popSpecific (fuel : Nat) : Option Search :=
  s.popLoop isolation hint fuel (hint &&& s.numberOfLanes - 1)

/-- Some lane whose lock is free holds a task of the isolation. -/
def Offers : Prop :=
  ∃ i < s.numberOfLanes, s.locked i = false ∧ ∃ task, some task ∈ s.lanes i ∧
    task.isolation = isolation

/-- What the search is for: it examines no lane twice, so that it ends after at most
`N` of them, takes a task of the isolation that was offered, and takes one if there is any. -/
structure Completes (search : Search) : Prop where
  once : search.examined.Nodup
  lanes : ∀ i ∈ search.examined, i < s.numberOfLanes
  offered : ∀ task, search.result = some task → task.isolation = isolation ∧
    ∃ i < s.numberOfLanes, s.locked i = false ∧ some task ∈ s.lanes i
  found : s.Offers isolation → search.result ≠ none

/-- The search stops by itself and does what it is for. -/
def SearchEnds : Prop :=
  ∃ fuel search, s.popSpecific isolation hint fuel = some search ∧ s.Completes isolation search

/-! ## Going back through the lanes -/

variable {s isolation hint} {idx i j : Nat}

theorem numberOfLanes_pos : 0 < s.numberOfLanes := by
  obtain ⟨j, -, hj⟩ := numLanes_eq_two_pow s.populationBits_eq s.numSlots
  rw [numberOfLanes, hj]
  exact Nat.two_pow_pos j

theorem and_numberOfLanes (x : Nat) : x &&& s.numberOfLanes - 1 = x % s.numberOfLanes := by
  obtain ⟨j, -, hj⟩ := numLanes_eq_two_pow s.populationBits_eq s.numSlots
  rw [numberOfLanes, hj]
  exact and_two_pow_sub_one_eq_mod x j

theorem previousLane_eq : s.previousLane idx = (idx + s.numberOfLanes - 1) % s.numberOfLanes := by
  have hpos := s.numberOfLanes_pos
  rw [previousLane, and_numberOfLanes]
  obtain ⟨j, hle, hj⟩ := numLanes_eq_two_pow s.populationBits_eq s.numSlots
  rw [numberOfLanes, hj] at hpos ⊢
  obtain ⟨m, hm⟩ : 2 ^ j ∣ 2 ^ 32 := Nat.pow_dvd_pow 2 (by omega)
  obtain ⟨k, rfl⟩ : ∃ k, m = k + 1 := exists_eq_succ_of_ne_zero (by rintro rfl; simp at hm)
  have hsplit : idx + 2 ^ 32 - 1 = idx + 2 ^ j - 1 + 2 ^ j * k := by
    rw [hm, mul_succ]
    omega
  rw [RingIndex.wrap_mod (by omega), hsplit, add_mul_mod_self_left]

/-- The lane the loop examines in round `k`. -/
def lane (s : Stream) (hint k : Nat) : Nat := (hint % s.numberOfLanes + s.numberOfLanes - k) %
  s.numberOfLanes

theorem lane_lt (hint k : Nat) : s.lane hint k < s.numberOfLanes :=
  mod_lt _ s.numberOfLanes_pos

theorem lane_succ {k : Nat} (hk : k < s.numberOfLanes) :
    s.previousLane (s.lane hint k) = s.lane hint (k + 1) := by
  rw [previousLane_eq, lane, lane, Nat.add_sub_assoc s.numberOfLanes_pos, mod_add_mod]
  rw [show hint % s.numberOfLanes + s.numberOfLanes - k + (s.numberOfLanes - 1) =
    hint % s.numberOfLanes + s.numberOfLanes - (k + 1) + s.numberOfLanes by omega,
    add_mod_right]

theorem lane_injective (hi : i < s.numberOfLanes) (hj : j < s.numberOfLanes)
    (h : s.lane hint i = s.lane hint j) : i = j := by
  have hlow : hint % s.numberOfLanes + 1 ≤ hint % s.numberOfLanes + s.numberOfLanes - i := by omega
  have := RingIndex.slot_injective hlow (by omega) (by omega) (by omega) h
  omega

theorem exists_lane (hint : Nat) (hi : i < s.numberOfLanes) :
    ∃ k < s.numberOfLanes, s.lane hint k = i := by
  obtain ⟨j, hlow, hhigh, hj⟩ := RingIndex.exists_in_window (hint % s.numberOfLanes + 1) hi
  refine ⟨hint % s.numberOfLanes + s.numberOfLanes - j, by omega, ?_⟩
  rw [lane, Nat.sub_sub_self (by omega), hj]

/-! ## One lane -/

theorem examine_offered {task : CriticalTask} {s' : Stream}
    (h : s.examine isolation idx = some (task, s')) :
    task.isolation = isolation ∧ s.locked idx = false ∧ some task ∈ s.lanes idx := by
  unfold examine at h
  split at h
  case isTrue hguard =>
    obtain ⟨⟨task', left⟩, hlook, heq⟩ := map_eq_some_iff.mp h
    cases heq
    obtain ⟨hmem, hiso⟩ := lookSpecific_mem hlook
    exact ⟨hiso, hguard.2, hmem⟩
  case isFalse => cases h

theorem Offers.population (h : s.Offers isolation) : s.population ≠ ∅ := by
  obtain ⟨i, -, hfree, task, hmem, -⟩ := h
  exact Finset.ne_empty_of_mem (s.populated i (ne_nil_of_mem hmem) hfree)

theorem Offers.examine (h : s.Offers isolation) :
    ∃ i < s.numberOfLanes, s.examine isolation i ≠ none := by
  obtain ⟨i, hi, hfree, task, hmem, hiso⟩ := h
  refine ⟨i, hi, ?_⟩
  have hbit := s.populated i (ne_nil_of_mem hmem) hfree
  rw [Stream.examine, dif_pos ⟨hbit, hfree⟩]
  simpa using lookSpecific_ne_none hmem hiso

/-! ## The loop -/

/-- The loop stops with round `k`. -/
def StopsAt (s : Stream) (isolation hint k : Nat) : Prop :=
  s.examine isolation (s.lane hint k) ≠ none ∨ s.population = ∅ ∨ s.lane hint (k + 1) = hint

/-- The rounds from `k` on, of which the loop stops with the last. -/
theorem popLoop_eq {k n : Nat} (hk : k + n < s.numberOfLanes)
    (hstop : s.StopsAt isolation hint (k + n)) (hgo : ∀ i < k + n, ¬ s.StopsAt isolation hint i) :
    ∃ search, s.popLoop isolation hint (n + 1) (s.lane hint k) = some search ∧
      search.examined = (List.range' k (n + 1)).map (s.lane hint) ∧
      search.result = (s.examine isolation (s.lane hint (k + n))).map (·.1) := by
  induction n generalizing k with
  | zero =>
    rw [add_zero] at hk hstop ⊢
    rw [popLoop]
    cases hexamine : s.examine isolation (s.lane hint k) with
    | some found => exact ⟨_, rfl, rfl, rfl⟩
    | none =>
      have hother := hstop.resolve_left (· hexamine)
      dsimp only
      rw [lane_succ hk, if_neg (by tauto)]
      exact ⟨_, rfl, rfl, rfl⟩
  | succ n ih =>
    rw [show k + (n + 1) = k + 1 + n by omega] at hk hstop hgo ⊢
    obtain ⟨hexamine, hother⟩ := not_or.mp (hgo k (by omega))
    obtain ⟨search, hsearch, hexamined, hresult⟩ := ih hk hstop hgo
    rw [popLoop, not_not.mp hexamine]
    dsimp only
    rw [lane_succ (by omega), if_pos (not_or.mp hother), hsearch]
    exact ⟨_, rfl, congrArg (_ :: ·) hexamined, hresult⟩

theorem lane_numberOfLanes (hhint : hint < s.numberOfLanes) :
    s.lane hint s.numberOfLanes = hint := by
  rw [lane, Nat.add_sub_cancel, mod_mod, mod_eq_of_lt hhint]

/-- A search that stops with one of the first `N` rounds has done what it is for: if it
came back to the hint it has been to every lane. -/
theorem completes_of_stops {k : Nat} (hk : k < s.numberOfLanes)
    (hstop : s.StopsAt isolation hint k) (hgo : ∀ i < k, ¬ s.StopsAt isolation hint i) :
    s.SearchEnds isolation hint := by
  rw [← zero_add k] at hk hstop hgo
  obtain ⟨search, hsearch, hexamined, hresult⟩ := popLoop_eq hk hstop hgo
  rw [zero_add] at hk hstop hgo hresult
  refine ⟨k + 1, search, ?_, ?_, ?_, ?_, ?_⟩
  · rw [popSpecific, and_numberOfLanes, ← hsearch, lane, Nat.sub_zero, add_mod_right,
      mod_mod]
  · rw [hexamined, ← range_eq_range']
    apply List.Nodup.map_on _ nodup_range
    intro i hi j hj heq
    rw [mem_range] at hi hj
    exact lane_injective (by omega) (by omega) heq
  · intro i hi
    rw [hexamined] at hi
    obtain ⟨j, -, rfl⟩ := mem_map.mp hi
    exact lane_lt hint j
  · intro task htask
    rw [hresult] at htask
    obtain ⟨⟨task', s'⟩, hsome, rfl⟩ := map_eq_some_iff.mp htask
    obtain ⟨hiso, hfree, hmem⟩ := examine_offered hsome
    exact ⟨hiso, _, lane_lt hint k, hfree, hmem⟩
  · intro hoffers hnone
    rw [hresult, map_eq_none_iff] at hnone
    obtain ⟨i, hi, hne⟩ := hoffers.examine
    obtain ⟨j, hj, rfl⟩ := exists_lane hint hi
    have hlast := (hstop.resolve_left (· hnone)).resolve_left hoffers.population
    have hhint : hint < s.numberOfLanes := hlast ▸ lane_lt hint _
    have hround : s.numberOfLanes ≤ k + 1 := by
      by_contra hlt
      have hzero : s.lane hint 0 = hint := by
        rw [lane, Nat.sub_zero, add_mod_right, mod_mod, mod_eq_of_lt hhint]
      have := lane_injective (by omega) (by omega) (hlast.trans hzero.symm)
      omega
    obtain hjk | rfl := lt_or_eq_of_le (show j ≤ k by omega)
    · exact hgo j hjk (.inl hne)
    · exact hne hnone

theorem popLoop_eq_none (hhint : s.numberOfLanes ≤ hint) (hpop : s.population ≠ ∅)
    (hnone : ¬ s.Offers isolation) (hidx : idx < s.numberOfLanes) (fuel : Nat) :
    s.popLoop isolation hint fuel idx = none := by
  induction fuel generalizing idx with
  | zero => rfl
  | succ fuel ih =>
    have hprev : s.previousLane idx < s.numberOfLanes := by
      rw [previousLane_eq]
      exact mod_lt _ s.numberOfLanes_pos
    cases hexamine : s.examine isolation idx with
    | some found =>
      obtain ⟨hiso, hfree, hmem⟩ := examine_offered hexamine
      exact absurd ⟨idx, hidx, hfree, _, hmem, hiso⟩ hnone
    | none =>
      rw [popLoop, hexamine]
      dsimp only
      rw [if_pos ⟨hpop, by omega⟩, ih hprev, map_none]

/-- The search ends exactly if the hint is one of the lanes, or there is nothing to
search, or there is a task to be found. -/
theorem popSpecific_ends_iff (s : Stream) (isolation hint : Nat) :
    s.SearchEnds isolation hint ↔
      hint < s.numberOfLanes ∨ s.population = ∅ ∨ s.Offers isolation := by
  have hpos := s.numberOfLanes_pos
  constructor
  · rintro ⟨fuel, search, hsearch, -⟩
    by_contra hnot
    obtain ⟨hhint, hother⟩ := not_or.mp hnot
    obtain ⟨hpop, hoffers⟩ := not_or.mp hother
    rw [popSpecific, and_numberOfLanes, popLoop_eq_none (not_lt.mp hhint) hpop hoffers
      (mod_lt _ hpos)] at hsearch
    cases hsearch
  · intro h
    have hstops : ∃ k, k < s.numberOfLanes ∧ s.StopsAt isolation hint k := by
      obtain hhint | hpop | hoffers := h
      · refine ⟨s.numberOfLanes - 1, by omega, .inr (.inr ?_)⟩
        rw [Nat.sub_add_cancel hpos, lane_numberOfLanes hhint]
      · exact ⟨0, hpos, .inr (.inl hpop)⟩
      · obtain ⟨i, hi, hne⟩ := hoffers.examine
        obtain ⟨k, hk, rfl⟩ := exists_lane hint hi
        exact ⟨k, hk, .inl hne⟩
    classical
    obtain ⟨hk, hstop⟩ := Nat.find_spec hstops
    refine completes_of_stops hk hstop fun i hi hi' => ?_
    exact Nat.find_min hstops hi ⟨by omega, hi'⟩

/-- An arena of 65 slots, with words of 64 bits, in whose stream is one task, of
isolation 1. -/
def crowdedArena : Stream where
  numSlots := 65
  populationBits := 64
  populationBits_eq := .inl rfl
  population := {0}
  lanes := update (fun _ => []) 0 [some ⟨0, 1⟩]
  locked _ := false
  populated i hne _ := by
    by_contra hi
    rw [update_of_ne (Finset.mem_singleton.not.mp hi)] at hne
    exact hne rfl

/-- The first search of slot 64 of this arena, for a task of isolation 2, never ends. -/
theorem crowdedArena_search_not_ends : 64 < crowdedArena.numSlots ∧
    (∀ fuel, crowdedArena.popSpecific 2 64 fuel = none) ∧ ¬ crowdedArena.SearchEnds 2 64 := by
  have hoffers : ¬ crowdedArena.Offers 2 := by
    rintro ⟨i, -, -, task, hmem, hiso⟩
    by_cases hi : i = 0
    · subst hi
      obtain rfl : task = ⟨0, 1⟩ := by simpa [crowdedArena] using hmem
      simp at hiso
    · simp [crowdedArena, update_of_ne hi] at hmem
  have hnever : ∀ fuel, crowdedArena.popSpecific 2 64 fuel = none :=
    popLoop_eq_none (by decide) (by decide) hoffers (by decide)
  refine ⟨by decide, hnever, ?_⟩
  rintro ⟨fuel, search, hsearch, -⟩
  rw [hnever fuel] at hsearch
  cases hsearch

end Stream

end OneTbb.Scheduler.TaskStream
