import OneTbb.Reduce.InOrder

/-!
# Whole runs of `parallel_reduce`

The invariant of a subtree is lifted to the state under the `wait_node`, and
every run from `start_reduce::run` is shown to end in the in-order fold.
-/

namespace OneTbb.Reduce

open Relation List OneTbb.Reduce.Tree

open Algorithms Cells

variable {R α B : Type*} {rg : Range R α} {body : Body B R}

/-- The steps that remain below a node when no thread splits its range again. -/
def Tree.work : Tree R → Nat
  | .task _ .spawned => 3
  | .task _ .splitting => 2
  | .task _ (.balancing pool) => pool.length + 1
  | .folding => 1
  | .done => 0
  | .node _ l r => l.work + r.work + 2

theorem work_afterBack (t : StartReduce R) (pool : List R) :
    (afterBack t pool).work = pool.length + 1 := by
  cases pool <;> rfl

/-- A subtree that has not finished has a thread that can move towards the end. -/
theorem Good.progress {σ : BodyId → B} {T : Tree R} {b v xs rs}
    (h : Good rg body σ T b v xs rs) (m : Memory B R) :
    T = .done ∨ T = .folding ∨ ∃ m' T', Step rg body m T m' T' ∧ T'.work < T.work := by
  induction h with
  | spawned _ hr _ => exact .inr (.inr ⟨_, _, Step.start hr, by simp [work]⟩)
  | splitting => exact .inr (.inr ⟨_, _, Step.runRange, by simp [work]⟩)
  | @balancing t b v pool rs _ hp _ =>
    obtain ⟨front, r, rfl⟩ := (eq_nil_or_concat' pool).resolve_left hp
    exact .inr (.inr ⟨_, _, Step.runBack, by simp [work_afterBack, work]⟩)
  | folding => exact .inr (.inl rfl)
  | done => exact .inl rfl
  | @rightSpawned n l t b v xs rs _ _ _ hr _ _ _ =>
    by_cases h2 : n.refCount = 2
    · exact .inr (.inr ⟨_, _, Step.startSplit hr h2, by simp [work]⟩)
    · exact .inr (.inr ⟨_, _, Step.startInPlace hr h2, by simp [work]⟩)
  | zombie _ _ hc _ _ _ ihl ihr =>
    refine .inr (.inr ?_)
    rcases ihl with rfl | rfl | ⟨m', l', hl, hw⟩
    · rcases ihr with rfl | rfl | ⟨m', r', hr, hw⟩
      · exact ⟨_, _, Step.join hc, by simp [work]⟩
      · exact ⟨_, _, Step.releaseRight, by simp [work]⟩
      · exact ⟨_, _, Step.right hr, by simpa [work] using hw⟩
    · exact ⟨_, _, Step.releaseLeft, by simp [work]⟩
    · exact ⟨_, _, Step.left hl, by simpa [work] using hw⟩
  | inPlace _ _ hc _ ih =>
    refine .inr (.inr ?_)
    rcases ih with rfl | rfl | ⟨m', r', hr, hw⟩
    · exact ⟨_, _, Step.join hc, by simp [work]⟩
    · exact ⟨_, _, Step.releaseRight, by simp [work]⟩
    · exact ⟨_, _, Step.right hr, by simpa [work] using hw⟩

/-- The user's body holds the subranges `rs` in order, each called once. -/
def Reduced (rg : Range R α) (body : Body B R) (init : B) (range : R) (m : Memory B R)
    (rs : List R) : Prop :=
  rs.flatMap rg.elems = rg.elems range ∧ m.calls.Perm rs ∧
    m.bodies userBody = rs.foldl body.call init

/-- Before the `wait_node` is released the tree is good for the whole range;
afterwards the whole range is in the user's body. -/
def StateInv (rg : Range R α) (body : Body B R) (init : B) (range : R) (s : State B R) :
    Prop :=
  (s.waitRefCount = 1 ∧ s.tree ≠ .done ∧ Owns (s.tree.own userBody) s.mem.next ∧
      ∃ rs, Good rg body s.mem.bodies s.tree userBody init (rg.elems range) rs ∧
        s.mem.calls.Perm rs) ∨
    (s.waitRefCount = 0 ∧ s.tree = .done ∧ ∃ rs, Reduced rg body init range s.mem rs)

theorem stateInv_run (init : B) (range : R) :
    StateInv rg body init range (run rg init range) := by
  unfold run
  split
  · rename_i he
    exact .inr ⟨rfl, rfl, [], by simp [rg.elems_empty range he], List.Perm.refl _, rfl⟩
  · refine .inl ⟨rfl, by simp, ⟨nodup_singleton _, ?_⟩, [], ?_, List.Perm.refl _⟩
    · intro i hi
      obtain rfl : i = userBody := by simpa [own, zombies] using hi
      exact Nat.lt_succ_self _
    · exact Good.spawned (t := ⟨range, userBody, false⟩) rfl rfl rfl

theorem stateInv_step (law : body.Lawful) (init : B) (range : R) (s t : State B R)
    (hs : StateInv rg body init range s) (h : StateStep rg body s t) :
    StateInv rg body init range t := by
  cases h with
  | @tree m T m' T' w h =>
    rcases hs with ⟨hw, _, ho, rs, hg, hp⟩ | ⟨_, rfl, _⟩
    · have o := h.outcome law hg ho
      obtain ⟨rs', new, hg', hcalls, hperm⟩ := o.good
      refine .inl ⟨hw, ?_, o.footprint.owns, rs', hg', ?_⟩
      · rintro rfl
        exact absurd h.pending.2 (by simp [pending])
      · simp only at hp
        rw [hcalls]
        exact (hp.append_left new).trans hperm.symm
    · exact absurd h.pending.1 (by simp [pending])
  | @release m w =>
    rcases hs with ⟨hw, _, _, rs, hg, hp⟩ | ⟨_, h, _⟩
    · obtain ⟨hxs, hv⟩ := hg.done_of_folding.done_inv
      exact .inr ⟨Nat.sub_eq_zero_of_le (Nat.le_of_eq hw), rfl, rs, hxs.symm, hp, hv⟩
    · cases h

/-- From every state of a run the reduction can still be completed. -/
theorem StateInv.can_return (law : body.Lawful) {init : B} {range : R} {s : State B R}
    (hs : StateInv rg body init range s) :
    ∃ t, ReflTransGen (StateStep rg body) s t ∧ t.Returned := by
  -- on the work left below the `wait_node`
  induction hn : s.tree.work using Nat.strongRecOn generalizing s with
  | _ n ih =>
    obtain ⟨m, T, w⟩ := s
    rcases id hs with ⟨hw, hdone, _, rs, hg, _⟩ | ⟨hw, _⟩
    · rcases hg.progress m with h | h | ⟨m', T', hstep, hlt⟩
      · exact absurd h hdone
      · simp only at h hw
        subst h hw
        exact ⟨_, ReflTransGen.single StateStep.release, rfl⟩
      · have hs' := stateInv_step law init range _ _ hs (StateStep.tree hstep)
        obtain ⟨t, hrun, hret⟩ := ih T'.work (hn ▸ hlt) hs' rfl
        exact ⟨t, hrun.head (StateStep.tree hstep), hret⟩
    · exact ⟨_, ReflTransGen.refl, hw⟩

/-- Every partitioner decision and every timing of right children leaves the
left-to-right fold in the user's body, and no run gets stuck before it has. -/
theorem parallelReduce_inOrder (law : body.Lawful) (init : B) (range : R) {s : State B R}
    (h : ReflTransGen (StateStep rg body) (run rg init range) s) :
    (s.Returned → ∃ rs : List R, rs.flatMap rg.elems = rg.elems range ∧
        s.mem.calls.Perm rs ∧ s.mem.bodies userBody = rs.foldl body.call init) ∧
      ∃ t, ReflTransGen (StateStep rg body) s t ∧ t.Returned := by
  have hinv := Transition.run_preserves (stateInv_step law init range) h
    (stateInv_run init range)
  refine ⟨fun hret => ?_, hinv.can_return law⟩
  rcases hinv with ⟨hw, _⟩ | ⟨_, _, hred⟩
  · exact absurd (hw.symm.trans hret) Nat.one_ne_zero
  · exact hred

/-- The body that appends what it is called with. -/
def listBody : Body (List Nat) (List Nat) where
  call b r := b ++ r
  splitOff _ := []
  join a b := a ++ b

theorem listBody_lawful : listBody.Lawful where
  join_assoc := append_assoc
  join_splitOff := fun a _ => append_nil a
  splitOff_join := fun a _ => nil_append a
  call_eq := fun _ _ _ => rfl

/-- A run in which the right child starts before its sibling is done and ends first. -/
theorem parallelReduce_inOrder_zombie :
    ∃ s, ReflTransGen (StateStep listRange listBody) (run listRange [0] [1, 2]) s ∧
      s.Returned ∧ s.mem.calls = [[1], [2]] ∧
      ∃ rs : List (List Nat), rs.flatMap listRange.elems = [1, 2] ∧
        s.mem.calls.Perm rs ∧ s.mem.bodies userBody = rs.foldl listBody.call [0] := by
  have hrun := (((((((((ReflTransGen.refl
    (a := run listRange [0] [1, 2]) (r := StateStep listRange listBody)).tail
    (.tree (.start rfl))).tail (.tree (.offerSplit .split rfl))).tail
    (.tree (.startSplit rfl rfl))).tail (.tree (.right .runRange))).tail
    (.tree .releaseRight)).tail (.tree (.left .runRange))).tail
    (.tree .releaseLeft)).tail (.tree (.join rfl))).tail .release
  exact ⟨_, hrun, rfl, rfl, (parallelReduce_inOrder listBody_lawful [0] [1, 2] hrun).1 rfl⟩

end OneTbb.Reduce
