import OneTbb.Library.Transition
import OneTbb.Sort.Ranges

/-!
# Whole runs of `parallel_sort`

The pretest either proves the sequence sorted or cancels its context, and the
quick sort keeps the invariant of its ranges until no task is left.
-/

namespace OneTbb.Sort

open List Relation

open Segment

variable {α : Type*} {comp : α → α → Bool} {n : Nat}

/-- A position is in one of the chunks. -/
def InChunks (chunks : List (Nat × Nat)) (k : Nat) : Prop :=
  ∃ c ∈ chunks, c.1 ≤ k ∧ k < c.2

/-- What holds in each stage of a sort of `a`. -/
def StateInv (comp : α → α → Bool) (n : Nat) (a : Nat → α) (s : State α) : Prop :=
  match s.stage with
  | .start => s.data = a
  | .pretest chunks cancelled => s.data = a ∧ (cancelled = false → ∀ k, 0 < k → k < n →
      InChunks chunks k ∨ comp (a k) (a (k - 1)) = false)
  | .sorting tasks => PermOn 0 n a s.data ∧ TasksInv comp n s.data tasks
  | .returned => PermOn 0 n a s.data ∧ SortedOn comp 0 n s.data

theorem tasksInv_initial (comp : α → α → Bool) (n : Nat) (a : Nat → α) :
    TasksInv comp n a (initialTasks n) where
  within := by
    simp only [initialTasks, mem_singleton, forall_eq]
    exact ⟨le_rfl, Nat.zero_le _, le_rfl, by simp⟩
  apart := pairwise_singleton _ _
  ordered := fun i j hij hj => .inl ⟨_, mem_singleton_self _,
    ⟨Nat.zero_le _, lt_trans hij hj⟩, Nat.zero_le _, hj⟩

/-- Taking the first position off a chunk leaves the others to be checked. -/
theorem inChunks_next {xs ys : List (Nat × Nat)} {k last i : Nat} (hne : i ≠ k)
    (h : InChunks (xs ++ (k, last) :: ys) i) : InChunks (xs ++ nextChunk k last ++ ys) i := by
  obtain ⟨c, hc, hle, hlt⟩ := h
  simp only [mem_append, mem_cons] at hc
  rcases hc with hc | rfl | hc
  · exact ⟨c, by simp [hc], hle, hlt⟩
  · simp only at hle hlt
    have hlt' : k + 1 < last := by omega
    exact ⟨(k + 1, last), by simp [nextChunk, hlt'], by simp only; omega, hlt⟩
  · exact ⟨c, by simp [hc], hle, hlt⟩

theorem inChunks_split {xs ys : List (Nat × Nat)} {k last mid i : Nat}
    (h : InChunks (xs ++ (k, last) :: ys) i) :
    InChunks (xs ++ [(k, mid), (mid, last)] ++ ys) i := by
  obtain ⟨c, hc, hle, hlt⟩ := h
  simp only [mem_append, mem_cons] at hc
  rcases hc with hc | rfl | hc
  · exact ⟨c, by simp [hc], hle, hlt⟩
  · rcases lt_or_ge i mid with him | him
    · exact ⟨(k, mid), by simp, hle, him⟩
    · exact ⟨(mid, last), by simp, him, hlt⟩
  · exact ⟨c, by simp [hc], hle, hlt⟩

theorem stateInv_step (swo : StrictWeak comp) (a : Nat → α) (s t : State α)
    (hs : StateInv comp n a s) (h : Step comp n s t) : StateInv comp n a t := by
  cases h with
  | empty h =>
    obtain rfl : _ = a := hs
    subst h
    exact ⟨PermOn.refl _ _ _, fun i j _ _ hj => by omega⟩
  | stdSort _ _ hperm hsort =>
    obtain rfl : _ = a := hs
    exact ⟨hperm, hsort⟩
  | unsorted =>
    obtain rfl : _ = a := hs
    exact ⟨PermOn.refl _ _ _, tasksInv_initial comp n _⟩
  | pretest hn h =>
    obtain rfl : _ = a := hs
    refine ⟨rfl, fun _ k hk hkn => ?_⟩
    rcases lt_or_ge serialCutoff k with hlt | hge
    · exact .inl ⟨_, mem_singleton_self _, hlt, hkn⟩
    · have hval := h (k - 1) (by omega)
      rw [Nat.sub_add_cancel hk] at hval
      exact .inr hval
  | splitChunk =>
    obtain ⟨rfl, hall⟩ := hs
    exact ⟨rfl, fun hc k hk hkn => (hall hc k hk hkn).imp_left inChunks_split⟩
  | @check _ xs ys k last c h =>
    obtain ⟨rfl, hall⟩ := hs
    refine ⟨rfl, fun hc i hi hin => ?_⟩
    by_cases hik : i = k
    · exact .inr (hik ▸ h)
    · exact (hall hc i hi hin).imp_left (inChunks_next hik)
  | cancel | skip =>
    obtain ⟨rfl, _⟩ := hs
    exact ⟨rfl, nofun⟩
  | sorted =>
    obtain ⟨rfl, hall⟩ := hs
    refine ⟨PermOn.refl _ _ _, sortedOn_of_neighbours swo fun k hk hkn => ?_⟩
    exact (hall rfl k hk hkn).resolve_left (by simp [InChunks])
  | reset =>
    obtain ⟨rfl, _⟩ := hs
    exact ⟨PermOn.refl _ _ _, tasksInv_initial comp n _⟩
  | @split _ _ _ _ r b _ hd hsp =>
    obtain ⟨hperm, hinv⟩ := hs
    have hw := hinv.within ⟨r, b⟩ (by simp)
    exact ⟨hperm.trans ((hsp.permOn hd).mono hw.lo_le hw.le_hi), hinv.split swo hd hsp⟩
  | @tooSmall _ xs ys r _ =>
    obtain ⟨hperm, hinv⟩ := hs
    have hw := hinv.within ⟨r, true⟩ (by simp)
    refine ⟨hperm, hinv.refine (PermOn.refl _ _ _) ?_ ?_ fun i j _ hi hj => ?_⟩
    · intro u hu
      simp only [mem_cons, not_mem_nil, or_false] at hu
      rcases hu with rfl | rfl
      · exact ⟨le_rfl, hw.first_le, le_rfl, hw.pos⟩
      · exact ⟨hw.first_le, le_rfl, le_rfl, fun _ h => absurd h (lt_irrefl _)⟩
    · exact pairwise_pair.mpr (.inl le_rfl)
    · exact .inl ⟨_, mem_cons_self, hi, hj⟩
  | @leafSort _ _ xs ys r hp hsort =>
    obtain ⟨hperm, hinv⟩ := hs
    have hw := hinv.within ⟨r, false⟩ (by simp)
    refine ⟨hperm.trans (hp.mono hw.lo_le hw.le_hi), ?_⟩
    have hinv' := @TasksInv.refine _ _ _ _ _ _ _ _ [] hinv hp (by simp) Pairwise.nil
      fun i j hij hi hj => .inr (hsort i j hi.1 hij hj.2)
    simpa using hinv'
  | done =>
    obtain ⟨hperm, hinv⟩ := hs
    exact ⟨hperm, fun i j _ hij hj => (hinv.ordered i j hij hj).resolve_left (by simp)⟩

theorem exists_step (swo : StrictWeak comp) {s : State α}
    (h : s.stage ≠ .returned) : ∃ t, Step comp n s t := by
  obtain ⟨data, stage⟩ := s
  cases stage with
  | returned => exact absurd rfl h
  | start =>
    rcases lt_or_ge n minParallelSize with hn | hn
    · obtain ⟨a', hperm, hsort⟩ := exists_sortedOn swo data 0 n
      rcases Nat.eq_zero_or_pos n with h0 | hpos
      · exact ⟨_, Step.empty h0⟩
      · exact ⟨_, Step.stdSort hpos hn hperm hsort⟩
    · by_cases hk : ∃ k, k < serialCutoff ∧ comp (data (k + 1)) (data k) = true
      · obtain ⟨k, hk, hc⟩ := hk
        exact ⟨_, Step.unsorted hn hk hc⟩
      · refine ⟨_, Step.pretest hn fun k hlt => Bool.eq_false_iff.mpr fun hc => ?_⟩
        exact hk ⟨k, hlt, hc⟩
  | pretest chunks cancelled =>
    cases chunks with
    | nil =>
      cases cancelled with
      | true => exact ⟨_, Step.reset⟩
      | false => exact ⟨_, Step.sorted⟩
    | cons c cs =>
      obtain ⟨k, last⟩ := c
      cases hc : comp (data k) (data (k - 1)) with
      | true => exact ⟨_, @Step.cancel _ comp n data [] cs k last _ hc⟩
      | false => exact ⟨_, @Step.check _ comp n data [] cs k last _ hc⟩
  | sorting tasks =>
    cases tasks with
    | nil => exact ⟨_, Step.done⟩
    | cons t ts =>
      obtain ⟨r, b⟩ := t
      cases b with
      | false =>
        obtain ⟨a', hperm, hsort⟩ := exists_sortedOn swo data r.first r.last
        exact ⟨_, @Step.leafSort _ comp n _ _ [] ts r hperm hsort⟩
      | true =>
        cases hd : r.isDivisible with
        | false => exact ⟨_, @Step.tooSmall _ comp n data [] ts r hd⟩
        | true =>
          obtain ⟨a', us, hs⟩ := @exists_splitUnchecked _ comp r data hd
          exact ⟨_, @Step.split _ comp n _ _ [] ts r _ _ hd hs⟩

/-- An upper bound on the iterations of a chunk and of the chunks it is split into. -/
def chunkWork (c : Nat × Nat) : Nat := 2 * (c.2 - c.1 - 1) + 1

/-- An upper bound on the steps to the return. -/
def State.work (n : Nat) (s : State α) : Nat :=
  match s.stage with
  | .start => 8 * n + 20
  | .pretest chunks _ => (chunks.map chunkWork).sum + 6 * n + 4
  | .sorting tasks => (tasks.map Task.work).sum + 1
  | .returned => 0

theorem initialTasks_work (n : Nat) : ((initialTasks n).map Task.work).sum = 6 * n + 2 := by
  simp [initialTasks, Task.work]

theorem nextChunk_work (k last : Nat) :
    ((nextChunk k last).map chunkWork).sum < chunkWork (k, last) := by
  unfold nextChunk chunkWork
  split_ifs <;> simp
  omega

theorem step_work_lt {s t : State α} (h : Step comp n s t) : t.work n < s.work n := by
  cases h with
  | empty | stdSort => simp [State.work]
  | unsorted =>
    simp only [State.work, initialTasks_work]
    omega
  | pretest =>
    simp only [State.work, chunkWork, map_cons, map_nil, sum_cons,
      sum_nil, serialCutoff]
    omega
  | splitChunk mid h h' =>
    simp only [State.work, chunkWork, map_append, map_cons, map_nil,
      sum_append, sum_cons, sum_nil]
    omega
  | @check _ xs ys k last c =>
    have := nextChunk_work k last
    simp only [State.work, map_append, map_cons, sum_append, sum_cons]
    omega
  | cancel | skip =>
    simp only [State.work, chunkWork, map_append, map_cons, sum_append,
      sum_cons]
    omega
  | sorted => simp [State.work]
  | reset =>
    simp only [State.work, initialTasks_work, map_nil, sum_nil]
    omega
  | @split _ _ _ _ _ b _ hd hs =>
    have := hs.work_lt b hd
    simp only [State.work, map_append, map_cons, sum_append, sum_cons]
    omega
  | tooSmall =>
    simp only [State.work, Task.work, map_append, map_cons, map_nil,
      sum_append, sum_cons, sum_nil]
    simp
    omega
  | leafSort =>
    simp only [State.work, Task.work, map_append, map_cons, sum_append,
      sum_cons]
    simp
  | done => simp [State.work]

/-- `parallel_sort` terminates under every schedule and every choice of the
library functions it calls, and returns a sorted permutation. While it runs,
no element of a task's range is out of place with respect to an element outside
of it. -/
theorem parallelSort_sorts (swo : StrictWeak comp) (n : Nat) (a : Nat → α) :
    (∀ s, ReflTransGen (Step comp n) ⟨a, .start⟩ s →
      (s.stage = .returned → ((range n).map s.data).Perm ((range n).map a) ∧
        SortedOn comp 0 n s.data) ∧
      (s.stage ≠ .returned → ∃ t, Step comp n s t) ∧
      ∀ tasks, s.stage = .sorting tasks → ∀ t ∈ tasks, ∀ i, t.range.Mem i →
        (∀ j, j < t.range.first → comp (s.data i) (s.data j) = false) ∧
        ∀ j, t.range.last ≤ j → j < n → comp (s.data j) (s.data i) = false) ∧
    ¬ ∃ run : Nat → State α, ∀ k, Step comp n (run k) (run (k + 1)) := by
  refine ⟨fun s hrun => ?_, Transition.no_infinite_run (State.work n) fun _ _ => step_work_lt⟩
  have hinv : StateInv comp n a s :=
    Transition.run_preserves (stateInv_step swo a) hrun rfl
  refine ⟨fun hret => ?_, fun hret => exists_step swo hret,
    fun tasks hst t ht i hi => ?_⟩
  · unfold StateInv at hinv
    rw [hret] at hinv
    exact ⟨hinv.1.perm, hinv.2⟩
  · unfold StateInv at hinv
    rw [hst] at hinv
    obtain ⟨xs, ys, rfl⟩ := append_of_mem ht
    exact ⟨fun j hj => hinv.2.before hi hj, fun j hj hjn => hinv.2.behind hi hj hjn⟩

/-- The comparator `std::less` on natural numbers. -/
def stdLess (a b : Nat) : Bool := decide (a < b)

theorem stdLess_strictWeak : StrictWeak stdLess := strictWeak_lt

/-- A sequence whose first two elements are out of order goes to the quick sort. -/
theorem parallelSort_sorts_unsorted : ∃ s,
    ReflTransGen (Step stdLess 500) ⟨fun i => if i = 0 then 1 else 0, .start⟩ s ∧
      s.stage = .returned ∧ SortedOn stdLess 0 500 s.data := by
  obtain ⟨a', hperm, hsort⟩ := exists_sortedOn stdLess_strictWeak
    (fun i => if i = 0 then 1 else 0) 0 500
  have hrun := ((ReflTransGen.single
    (Step.unsorted (k := 0) (by decide) (by decide) (by decide))).tail
    (@Step.leafSort _ stdLess 500 _ _ [] [] ⟨0, 500, true⟩ hperm hsort)).tail Step.done
  exact ⟨_, hrun, rfl, (((parallelSort_sorts stdLess_strictWeak 500 _).1 _ hrun).1 rfl).2⟩

end OneTbb.Sort
